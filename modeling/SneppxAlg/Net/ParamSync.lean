import Mathlib.Data.Finset.Max
import Mathlib.Data.List.GetD
import Mathlib.Data.Prod.Lex
import SneppxAlg.Lib.LastWriter

/-!
# Parameter sync

`sync_params_impl` of `net/distributed/src/lib.rs`. A node sends its parameters to all peers, each
with a version one above that in its store, and then collects the parameters of the peers, one peer
after the other. A received parameter replaces the node's own if its version and node id are above
what the store holds.

What a node sends is not put into its own store, so the node with the greatest contribution compares
those of the others with an older entry of the store, or with none, and gives its own values up
(`converges_iff`).

All parameters are taken before the first message is received, so what the peers find in their streams
does not depend on when each node runs: a node's call is a function of what its peers sent and the
order in which it goes through them. No peer has failed, and the streams carry nothing but parameters.
-/

namespace SneppxAlg.ParamSync

open Lib.LastWriter

variable {α : Type*}

/-- `ParamState`, without the time. -/
structure ParamState (α : Type*) where
  data : List α
  version : UInt64
  nodeId : UInt64

/-- `ProtoMsg::ParamSync`. The name is the number in `param_{i}`. -/
structure ParamMsg (α : Type*) where
  name : ℕ
  data : List α
  version : UInt64
  nodeId : UInt64

/-- The vectors behind `param_ptrs`, of the lengths in `shapes`, and `param_store`. -/
structure Node (α : Type*) where
  params : List (List α)
  store : ℕ → Option (ParamState α)

def Node.param (node : Node α) (k : ℕ) : List α := node.params.getD k []

def Node.version (node : Node α) (k : ℕ) : UInt64 := ((node.store k).map (·.version)).getD 0 + 1

def paramNames (node : Node α) : List ℕ := List.range node.params.length

def paramSnapshot (nodeId : UInt64) (node : Node α) (k : ℕ) : ParamMsg α :=
  { name := k, data := node.param k, version := node.version k, nodeId := nodeId }

/-- What a node sends to each peer. -/
def paramSnapshots (nodeId : UInt64) (node : Node α) : List (ParamMsg α) :=
  (paramNames node).map (paramSnapshot nodeId node)

def shouldUpdate (version nid : UInt64) : Option (ParamState α) → Bool
  | none => true
  | some p => version > p.version || (version == p.version && nid > p.nodeId)

/-- `copy_from_slice` on what both vectors have. -/
def overwrite (data old : List α) : List α :=
  let len := min old.length data.length
  data.take len ++ old.drop len

/-- The message for parameter `k`. -/
def recvParam (node : Node α) (k : ℕ) (msg : ParamMsg α) : Node α :=
  if msg.name ≠ k then node
  else if shouldUpdate msg.version msg.nodeId (node.store msg.name) then
    { params := node.params.modify k (overwrite msg.data)
      store := Function.update node.store msg.name
        (some { data := msg.data, version := msg.version, nodeId := msg.nodeId }) }
  else node

/-- The messages of one peer, `none` if the node waits for one that does not come. -/
def collectFrom (node : Node α) : List ℕ → List (ParamMsg α) → Option (Node α)
  | [], _ => some node
  | _ :: _, [] => none
  | k :: names, msg :: stream => collectFrom (recvParam node k msg) names stream

def collect (names : List ℕ) (node : Node α) : List (List (ParamMsg α)) → Option (Node α)
  | [] => some node
  | stream :: streams => (collectFrom node names stream).bind fun node => collect names node streams

/-- `sync_params_impl`, on the streams of the peers. -/
def syncParams (node : Node α) (streams : List (List (ParamMsg α))) : Option (Node α) :=
  if streams.isEmpty then some node else collect (paramNames node) node streams

/-! ## A set of nodes -/

abbrev Nodes (α : Type*) := UInt64 → Node α

/-- Each node goes through all others. -/
def IsOrder (ids : Finset UInt64) (order : UInt64 → List UInt64) : Prop :=
  ∀ i ∈ ids, (order i).Nodup ∧ ∀ q, q ∈ order i ↔ q ∈ ids ∧ q ≠ i

/-- All nodes call `sync_params`: what node `i` ends with. -/
def syncAll (nodes : Nodes α) (order : UInt64 → List UInt64) (i : UInt64) : Option (Node α) :=
  syncParams (nodes i) ((order i).map fun q => paramSnapshots q (nodes q))

def key (version nid : UInt64) : ℕ ×ₗ ℕ := toLex (version.toNat, nid.toNat)

/-- What the contribution of a node to a parameter is compared by. -/
def contribution (nodes : Nodes α) (k : ℕ) (i : UInt64) : ℕ ×ₗ ℕ := key ((nodes i).version k) i

/-- The greatest contribution to a parameter is that of `g`. -/
def Greatest (nodes : Nodes α) (ids : Finset UInt64) (k : ℕ) (g : UInt64) : Prop :=
  g ∈ ids ∧ ∀ i ∈ ids, contribution nodes k i ≤ contribution nodes k g

/-- In every order all nodes end with the same values, those of the greatest contributions. -/
def Converges (nodes : Nodes α) (ids : Finset UInt64) : Prop :=
  ∀ order, IsOrder ids order → ∃ vals : List (List α),
    (∀ i ∈ ids, ∃ node, syncAll nodes order i = some node ∧ node.params = vals) ∧
      ∀ k g, Greatest nodes ids k g → (nodes g).param k = vals.getD k []

def SameShapes (nodes : Nodes α) (ids : Finset UInt64) : Prop :=
  ∀ i ∈ ids, ∀ j ∈ ids, (nodes i).params.map List.length = (nodes j).params.map List.length

/-! ## One node -/

section

variable {node node' : Node α} {k : ℕ} {msg : ParamMsg α}

theorem length_overwrite (data old : List α) : (overwrite data old).length = old.length := by
  simp only [overwrite, List.length_append, List.length_take, List.length_drop]
  omega

theorem overwrite_of_length_eq {data old : List α} (h : old.length = data.length) :
    overwrite data old = data := by
  simp [overwrite, h]

theorem shapes_recvParam (node : Node α) (k : ℕ) (msg : ParamMsg α) :
    (recvParam node k msg).params.map List.length = node.params.map List.length := by
  unfold recvParam
  split_ifs
  · rfl
  · refine List.ext_getElem (by simp) fun i h1 h2 => ?_
    simp only [List.getElem_map, List.getElem_modify]
    split_ifs
    · rw [length_overwrite]
    · rfl
  · rfl

theorem shapes_collectFrom {names : List ℕ} {stream : List (ParamMsg α)}
    (h : collectFrom node names stream = some node') :
    node'.params.map List.length = node.params.map List.length := by
  induction names generalizing node stream with
  | nil =>
    cases h
    rfl
  | cons k names ih =>
    cases stream with
    | nil => cases h
    | cons msg stream => rw [ih h, shapes_recvParam]

theorem shapes_collect {names : List ℕ} {streams : List (List (ParamMsg α))}
    (h : collect names node streams = some node') :
    node'.params.map List.length = node.params.map List.length := by
  induction streams generalizing node with
  | nil =>
    cases h
    rfl
  | cons stream streams ih =>
    obtain ⟨mid, hmid, hrest⟩ := Option.bind_eq_some_iff.mp h
    rw [ih hrest, shapes_collectFrom hmid]

/-- A node has the vectors it had, with other numbers in them. -/
theorem shapes_syncParams {streams : List (List (ParamMsg α))}
    (h : syncParams node streams = some node') :
    node'.params.map List.length = node.params.map List.length := by
  unfold syncParams at h
  split_ifs at h
  · cases h
    rfl
  · exact shapes_collect h

/-- The entry of a store, as received parameters are compared with it. -/
def stamp : Option (ParamState α) → WithBot (ℕ ×ₗ ℕ)
  | none => ⊥
  | some p => key p.version p.nodeId

/-- A parameter and its entry in the store. -/
def register (node : Node α) (k : ℕ) : Register (ℕ ×ₗ ℕ) (List α) :=
  { stamp := stamp (node.store k), value := node.param k }

theorem shouldUpdate_iff {version nid : UInt64} {current : Option (ParamState α)} :
    shouldUpdate version nid current = true ↔ stamp current < key version nid := by
  cases current with
  | none => exact iff_of_true rfl (WithBot.bot_lt_coe _)
  | some p =>
    simp only [shouldUpdate, stamp, key, WithBot.coe_lt_coe, Prod.Lex.toLex_lt_toLex, Bool.or_eq_true,
      Bool.and_eq_true, decide_eq_true_eq, beq_iff_eq, gt_iff_lt, UInt64.lt_iff_toNat_lt,
      ← UInt64.toNat_inj]
    rw [eq_comm (a := version.toNat)]

theorem param_modify {f : List α → List α} {params : List (List α)} (hk : k < params.length) :
    (params.modify k f).getD k [] = f (params.getD k []) := by
  rw [List.getD_eq_getElem _ _ (by simpa using hk), List.getD_eq_getElem _ _ hk, List.getElem_modify,
    if_pos rfl]

theorem param_modify_of_ne {f : List α → List α} {params : List (List α)} {j : ℕ} (hj : k ≠ j) :
    (params.modify k f).getD j [] = params.getD j [] := by
  rw [List.getD_eq_getElem?_getD, List.getD_eq_getElem?_getD, List.getElem?_modify]
  simp [hj]

theorem register_recvParam (hk : k < node.params.length) (hname : msg.name = k)
    (hlen : (node.param k).length = msg.data.length) :
    register (recvParam node k msg) k =
      (register node k).write (key msg.version msg.nodeId, msg.data) := by
  subst hname
  unfold recvParam
  rw [if_neg (not_not_intro rfl)]
  split_ifs with hupd
  · rw [write_of_lt (shouldUpdate_iff.mp hupd)]
    simp only [register, Node.param, Function.update_self, param_modify hk, stamp]
    exact congrArg (Register.mk _) (overwrite_of_length_eq hlen)
  · rw [shouldUpdate_iff, not_lt] at hupd
    rw [write_of_le hupd]

theorem register_recvParam_of_ne {j : ℕ} (hname : msg.name = k) (hj : j ≠ k) :
    register (recvParam node k msg) j = register node j := by
  subst hname
  unfold recvParam
  rw [if_neg (not_not_intro rfl)]
  split_ifs
  · simp only [register, Node.param, Function.update_of_ne hj, param_modify_of_ne hj.symm]
  · rfl

theorem length_param_eq (h : node.params.map List.length = node'.params.map List.length) (k : ℕ) :
    (node.param k).length = (node'.param k).length := by
  have hget := congrArg (fun l => l.getD k ([] : List α).length) h
  simpa only [Node.param, List.getD_map] using hget

theorem length_params_eq (h : node.params.map List.length = node'.params.map List.length) :
    node.params.length = node'.params.length := by
  have := congrArg List.length h
  rwa [List.length_map, List.length_map] at this

/-- The contribution of a peer to a parameter. -/
def contributed (q : UInt64) (sender : Node α) (k : ℕ) : (ℕ ×ₗ ℕ) × List α :=
  (key (sender.version k) q, sender.param k)

theorem collectFrom_spec {q : UInt64} {sender : Node α} {names : List ℕ}
    (hshape : node.params.map List.length = sender.params.map List.length) (hnodup : names.Nodup)
    (hnames : ∀ k ∈ names, k < node.params.length) :
    ∃ node', collectFrom node names (names.map (paramSnapshot q sender)) = some node' ∧
      ∀ k, register node' k =
        if k ∈ names then (register node k).write (contributed q sender k) else register node k := by
  induction names generalizing node with
  | nil => exact ⟨node, rfl, fun k => rfl⟩
  | cons j names ih =>
    obtain ⟨hj, hnodup⟩ := List.nodup_cons.mp hnodup
    have hshape' := shapes_recvParam node j (paramSnapshot q sender j)
    have hlen := length_params_eq hshape'
    obtain ⟨node', hcollect, hreg⟩ := ih (hshape'.trans hshape) hnodup fun k hk => by
      rw [hlen]
      exact hnames k (List.mem_cons_of_mem _ hk)
    refine ⟨node', hcollect, fun k => ?_⟩
    rw [hreg k]
    by_cases hkj : k = j
    · subst hkj
      rw [if_neg hj, if_pos List.mem_cons_self]
      exact register_recvParam (hnames k List.mem_cons_self) rfl (length_param_eq hshape k)
    · have hname : (paramSnapshot q sender j).name = j := rfl
      rw [register_recvParam_of_ne hname hkj]
      simp only [List.mem_cons, hkj, false_or]

/-- For each parameter the contributions of the peers are written one after the other. -/
theorem collect_spec {nodes : Nodes α} {peers : List UInt64} {m : ℕ} (hm : node.params.length = m)
    (hshape : ∀ q ∈ peers, node.params.map List.length = (nodes q).params.map List.length) :
    ∃ node', collect (List.range m) node (peers.map fun q => paramSnapshots q (nodes q)) = some node' ∧
      ∀ k < m, register node' k =
        (peers.map fun q => contributed q (nodes q) k).foldl Register.write (register node k) := by
  induction peers generalizing node with
  | nil => exact ⟨node, rfl, fun k _ => rfl⟩
  | cons q peers ih =>
    have hq := hshape q List.mem_cons_self
    obtain ⟨mid, hmid, hreg⟩ := collectFrom_spec (q := q) hq (List.nodup_range (n := m))
      fun k hk => by rw [hm]; exact List.mem_range.mp hk
    have hshape' := shapes_collectFrom hmid
    obtain ⟨node', hrest, hreg'⟩ := ih ((length_params_eq hshape').trans hm) fun r hr =>
      hshape'.trans (hshape r (List.mem_cons_of_mem _ hr))
    refine ⟨node', ?_, fun k hk => ?_⟩
    · have hnames : paramNames (nodes q) = List.range m := by
        rw [paramNames, ← length_params_eq hq, hm]
      rw [List.map_cons, collect, paramSnapshots, hnames, hmid]
      exact hrest
    · rw [hreg' k hk, hreg k, if_pos (List.mem_range.mpr hk)]
      rfl

theorem syncParams_spec {nodes : Nodes α} {peers : List UInt64}
    (hshape : ∀ q ∈ peers, node.params.map List.length = (nodes q).params.map List.length) :
    ∃ node', syncParams node (peers.map fun q => paramSnapshots q (nodes q)) = some node' ∧
      ∀ k < node.params.length, register node' k =
        (peers.map fun q => contributed q (nodes q) k).foldl Register.write (register node k) := by
  unfold syncParams
  split_ifs with hempty
  · rw [List.isEmpty_iff, List.map_eq_nil_iff] at hempty
    subst hempty
    exact ⟨node, rfl, fun k _ => rfl⟩
  · exact collect_spec rfl hshape

end

/-! ## All nodes -/

section

variable {nodes : Nodes α} {ids : Finset UInt64} {order : UInt64 → List UInt64} {i g h : UInt64} {k : ℕ}

theorem contribution_inj (heq : contribution nodes k g = contribution nodes k h) : g = h := by
  have hsnd := congrArg (fun c => (ofLex c).2) heq
  exact UInt64.toNat_inj.mp hsnd

theorem exists_greatest (nodes : Nodes α) (k : ℕ) (hne : ids.Nonempty) : ∃ g, Greatest nodes ids k g := by
  obtain ⟨g, hg, hmax⟩ := ids.exists_max_image (contribution nodes k) hne
  exact ⟨g, hg, hmax⟩

/-- Another node receives the greatest contribution. -/
theorem Greatest.erase (hg : Greatest nodes ids k g) (hi : i ≠ g) : Greatest nodes (ids.erase i) k g :=
  ⟨Finset.mem_erase.mpr ⟨hi.symm, hg.1⟩, fun j hj => hg.2 j (Finset.mem_of_mem_erase hj)⟩

theorem exists_order (ids : Finset UInt64) : ∃ order, IsOrder ids order := by
  refine ⟨fun i => (ids.erase i).toList, fun i _ => ⟨Finset.nodup_toList _, fun q => ?_⟩⟩
  rw [Finset.mem_toList, Finset.mem_erase, and_comm]

theorem param_eq_nil {node : Node α} (hk : node.params.length ≤ k) : node.param k = [] :=
  List.getD_eq_default _ _ hk

theorem order_eq_nil (horder : IsOrder ids order) (hi : i ∈ ids) (hids : ids.erase i = ∅) :
    order i = [] := by
  refine List.eq_nil_iff_forall_not_mem.mpr fun q hq => ?_
  obtain ⟨hq, hne⟩ := ((horder i hi).2 q).mp hq
  have hmem : q ∈ ids.erase i := Finset.mem_erase.mpr ⟨hne, hq⟩
  rw [hids] at hmem
  exact absurd hmem (Finset.notMem_empty q)

theorem foldl_contributed (horder : IsOrder ids order) (hi : i ∈ ids)
    (hh : Greatest nodes (ids.erase i) k h) (s : Register (ℕ ×ₗ ℕ) (List α)) :
    ((order i).map fun q => contributed q (nodes q) k).foldl Register.write s =
      s.write (contributed h (nodes h) k) := by
  have hmem : ∀ q, q ∈ order i ↔ q ∈ ids.erase i := by
    intro q
    rw [(horder i hi).2 q, Finset.mem_erase, and_comm]
  refine foldl_write (List.mem_map_of_mem ((hmem h).mpr hh.1)) ?_ ?_
  · rintro _ hm
    obtain ⟨q, hq, rfl⟩ := List.mem_map.mp hm
    exact hh.2 q ((hmem q).mp hq)
  · rintro _ hm heq
    obtain ⟨q, hq, rfl⟩ := List.mem_map.mp hm
    have hqh : q = h := contribution_inj (show contribution nodes k q = contribution nodes k h from heq)
    rw [hqh]

/-- What a node ends with: the greatest of the others' contributions, or what it had if the entry in
its store is not older. -/
theorem syncAll_spec (hshape : SameShapes nodes ids) (horder : IsOrder ids order) (hi : i ∈ ids) :
    ∃ node, syncAll nodes order i = some node ∧
      (ids.erase i = ∅ → ∀ k, node.param k = (nodes i).param k) ∧
      ∀ k h, Greatest nodes (ids.erase i) k h → node.param k =
        if shouldUpdate ((nodes h).version k) h ((nodes i).store k) then (nodes h).param k
        else (nodes i).param k := by
  have hshape' : ∀ q ∈ order i, (nodes i).params.map List.length = (nodes q).params.map List.length :=
    fun q hq => hshape i hi q (((horder i hi).2 q).mp hq).1
  obtain ⟨node, hsync, hreg⟩ := syncParams_spec hshape'
  refine ⟨node, hsync, fun hids k => ?_, fun k h hh => ?_⟩
  · rw [order_eq_nil horder hi hids] at hsync
    cases hsync
    rfl
  · rcases Nat.lt_or_ge k (nodes i).params.length with hk | hk
    · have hvalue := congrArg Register.value (hreg k hk)
      rw [foldl_contributed horder hi hh] at hvalue
      split_ifs with hupd
      · rwa [write_of_lt (shouldUpdate_iff.mp hupd)] at hvalue
      · rw [shouldUpdate_iff, not_lt] at hupd
        rwa [write_of_le hupd] at hvalue
    · have hnode := length_params_eq (shapes_syncParams hsync)
      have hother := length_params_eq (hshape i hi h (Finset.mem_of_mem_erase hh.1))
      rw [param_eq_nil (by omega), param_eq_nil (by omega), param_eq_nil hk, ite_self]

/-- The greatest contribution wins at every node: the node it comes from takes over no other one,
unless with the same values, and each other node takes it over, unless it has the same values. -/
def Wins (nodes : Nodes α) (ids : Finset UInt64) (k : ℕ) (g : UInt64) : Prop :=
  (∀ h, Greatest nodes (ids.erase g) k h →
    shouldUpdate ((nodes h).version k) h ((nodes g).store k) = true →
      (nodes h).param k = (nodes g).param k) ∧
  ∀ i ∈ ids, i ≠ g → shouldUpdate ((nodes g).version k) g ((nodes i).store k) = false →
    (nodes i).param k = (nodes g).param k

theorem param_of_wins (hshape : SameShapes nodes ids) (horder : IsOrder ids order) (hi : i ∈ ids)
    (hg : Greatest nodes ids k g) (hwins : Wins nodes ids k g) {node : Node α}
    (hsync : syncAll nodes order i = some node) : node.param k = (nodes g).param k := by
  obtain ⟨node', hsync', halone, hparam⟩ := syncAll_spec hshape horder hi
  rw [hsync] at hsync'
  cases hsync'
  rcases (ids.erase i).eq_empty_or_nonempty with hids | hids
  · have hgi : g = i := by
      by_contra hne
      have hmem : g ∈ ids.erase i := Finset.mem_erase.mpr ⟨hne, hg.1⟩
      rw [hids] at hmem
      exact absurd hmem (Finset.notMem_empty g)
    rw [halone hids, hgi]
  by_cases hig : i = g
  · subst hig
    obtain ⟨h, hh⟩ := exists_greatest nodes k hids
    rw [hparam k h hh]
    split_ifs with hupd
    · exact hwins.1 h hh hupd
    · rfl
  · rw [hparam k g (hg.erase hig)]
    split_ifs with hupd
    · rfl
    · rw [Bool.not_eq_true] at hupd
      exact hwins.2 i hi hig hupd

theorem wins_of_param (hshape : SameShapes nodes ids) (horder : IsOrder ids order)
    (hg : Greatest nodes ids k g)
    (hall : ∀ i ∈ ids, ∀ node, syncAll nodes order i = some node → node.param k = (nodes g).param k) :
    Wins nodes ids k g := by
  constructor
  · intro h hh hupd
    obtain ⟨node, hsync, -, hparam⟩ := syncAll_spec hshape horder hg.1
    rw [← hall g hg.1 node hsync, hparam k h hh, if_pos hupd]
  · intro i hi hne hupd
    obtain ⟨node, hsync, -, hparam⟩ := syncAll_spec hshape horder hi
    rw [← hall i hi node hsync, hparam k g (hg.erase hne), hupd, if_neg Bool.false_ne_true]

theorem Converges.sameShapes (hconv : Converges nodes ids) : SameShapes nodes ids := by
  obtain ⟨order, horder⟩ := exists_order ids
  obtain ⟨vals, hvals, -⟩ := hconv order horder
  intro i hi j hj
  obtain ⟨a, ha, haval⟩ := hvals i hi
  obtain ⟨b, hb, hbval⟩ := hvals j hj
  rw [← shapes_syncParams ha, ← shapes_syncParams hb, haval, hbval]

theorem Converges.wins (hconv : Converges nodes ids) (hg : Greatest nodes ids k g) :
    Wins nodes ids k g := by
  obtain ⟨order, horder⟩ := exists_order ids
  obtain ⟨vals, hvals, hgreatest⟩ := hconv order horder
  refine wins_of_param hconv.sameShapes horder hg fun i hi node hsync => ?_
  obtain ⟨node', hsync', hnode⟩ := hvals i hi
  rw [hsync] at hsync'
  cases hsync'
  rw [hgreatest k g hg, Node.param, hnode]

/-- The nodes agree on the greatest contributions just when all have parameters of the same shapes
and each greatest contribution wins. -/
theorem converges_iff (nodes : Nodes α) (ids : Finset UInt64) :
    Converges nodes ids ↔
      SameShapes nodes ids ∧ ∀ k g, Greatest nodes ids k g → Wins nodes ids k g := by
  constructor
  · intro hconv
    exact ⟨hconv.sameShapes, fun k g hg => hconv.wins hg⟩
  rintro ⟨hshape, hwins⟩ order horder
  rcases ids.eq_empty_or_nonempty with rfl | hne
  · refine ⟨[], fun i hi => absurd hi (Finset.notMem_empty i), fun k g hg => ?_⟩
    exact absurd hg.1 (Finset.notMem_empty g)
  obtain ⟨j, hj⟩ := hne
  obtain ⟨first, hfirst, -⟩ := syncAll_spec hshape horder hj
  have hvalue : ∀ i ∈ ids, ∀ node, syncAll nodes order i = some node → ∀ k g,
      Greatest nodes ids k g → node.param k = (nodes g).param k :=
    fun i hi node hsync k g hg => param_of_wins hshape horder hi hg (hwins k g hg) hsync
  refine ⟨first.params, fun i hi => ?_, fun k g hg => (hvalue j hj first hfirst k g hg).symm⟩
  obtain ⟨node, hsync, -⟩ := syncAll_spec hshape horder hi
  refine ⟨node, hsync, ?_⟩
  have hlen : node.params.length = first.params.length := by
    refine length_params_eq ?_
    rw [shapes_syncParams hsync, shapes_syncParams hfirst, hshape i hi j hj]
  refine List.ext_getElem hlen fun k h1 h2 => ?_
  obtain ⟨g, hg⟩ := exists_greatest nodes k ⟨j, hj⟩
  rw [← List.getD_eq_getElem _ [] h1, ← List.getD_eq_getElem _ [] h2]
  exact (hvalue i hi node hsync k g hg).trans (hvalue j hj first hfirst k g hg).symm

/-- Nodes 1 and 2 with empty stores and one parameter each. -/
def twoNodes : Nodes ℕ := fun i =>
  { params := [[if i = 1 then 10 else 20]], store := fun _ => none }

/-- They take over each other's values. -/
theorem not_converges_twoNodes : ¬ Converges twoNodes {1, 2} := by
  intro hconv
  have hg : Greatest twoNodes {1, 2} 0 2 := by
    refine ⟨by decide, fun i hi => ?_⟩
    rcases Finset.mem_insert.mp hi with rfl | hi
    · decide
    · rw [Finset.mem_singleton.mp hi]
  have hh : Greatest twoNodes (Finset.erase {1, 2} 2) 0 1 := by
    refine ⟨by decide, fun i hi => ?_⟩
    rw [show Finset.erase {1, 2} (2 : UInt64) = {1} by decide] at hi
    rw [Finset.mem_singleton.mp hi]
  exact absurd ((hconv.wins hg).1 1 hh rfl) (by decide)

end

end SneppxAlg.ParamSync
