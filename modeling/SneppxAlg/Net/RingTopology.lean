import Mathlib.Data.List.InsertIdx
import Mathlib.Data.List.TakeWhile
import Mathlib.Order.Basic
import SneppxAlg.Lib.Capped

/-!
# The ring topology

`arix_dist_connect` of `net/distributed/src/lib.rs`, with `connect_to_peer_inner` and the part of
`discovery_server` that adds peers. A call connects to a peer, adds the peers the answer names, adds
the peer itself, and then builds the ring anew from the list of peers and the node itself.

The peer is added under the id of the node, not under its own, so the ring has that id twice; and the
world size counts the calls, not the entries of the ring. Both are right only if the list of peers is
full before the first call gets to add its peer and there is one call more than the list has room for
(`sound_iff`).

Requests are served by other threads, so they may come between any two of the sections of a call that
hold the lock of the peers. Socket addresses are any linear order.
-/

namespace SneppxAlg.Topology

open Lib.Capped

variable {A : Type*} [LinearOrder A]

/-- `PeerState`, as far as it matters here. -/
structure PeerState (A : Type*) where
  nodeId : UInt64
  addr : A

/-- `PeerAddr`: `sock` is what the text of the address and port parses to. -/
structure PeerAddr (A : Type*) where
  nodeId : UInt64
  sock : Option A

structure RingTopology (A : Type*) where
  peers : List A
  nodeIds : List UInt64
  rank : ℕ
  worldSize : ℕ

/-- The node itself: `node_id`, `127.0.0.1` with its port, `max_peers`. -/
structure Self (A : Type*) where
  nodeId : UInt64
  addr : A
  maxPeers : ℕ

structure SharedState (A : Type*) where
  peers : List (PeerState A)
  topology : Option (RingTopology A)

/-- A call that connects to `addr`: the peers of the answer, if it is a `DiscoveryResp`, and the
requests that are served between the sections of the call. -/
structure Call (A : Type*) where
  addr : A
  resp : Option (List (PeerAddr A))
  beforePeer : List (PeerState A)
  beforeRing : List (PeerState A)

inductive Event (A : Type*) where
  | connect (call : Call A)
  | request (peer : PeerState A)

/-- `arix_dist_init`. -/
def init : SharedState A := { peers := [], topology := none }

variable (me : Self A)

/-- There is no peer with the id, and there is room. -/
def mayAdd (peers : List (PeerState A)) (nodeId : UInt64) : Bool :=
  !(peers.any fun x => x.nodeId == nodeId) && peers.length < me.maxPeers

/-- A peer of a `DiscoveryReq`, and the one `connect_to_peer_inner` has connected to. -/
def addPeer (peers : List (PeerState A)) (p : PeerState A) : List (PeerState A) :=
  if mayAdd me peers p.nodeId then peers ++ [p] else peers

/-- The peers of a `DiscoveryResp`, `none` if an address that is needed does not parse. -/
def addDiscovered (peers : List (PeerState A)) : List (PeerAddr A) → Option (List (PeerState A))
  | [] => some peers
  | p :: rest =>
    if mayAdd me peers p.nodeId then
      p.sock.bind fun sock => addDiscovered (peers ++ [{ nodeId := p.nodeId, addr := sock }]) rest
    else addDiscovered peers rest

/-- `connect_to_peer_inner`. -/
def connectToPeerInner (peers : List (PeerState A)) (call : Call A) : Option (List (PeerState A)) :=
  (addDiscovered me peers (call.resp.getD [])).map fun peers =>
    addPeer me (call.beforePeer.foldl (addPeer me) peers)
      { nodeId := me.nodeId, addr := call.addr }

/-- The ring that `arix_dist_connect` stores. -/
def buildRing (peers : List (PeerState A)) (topo : Option (RingTopology A)) : RingTopology A :=
  let addrs := peers.map (·.addr)
  let insertPos := (addrs.findIdx? fun a => me.addr < a).getD addrs.length
  let ids := (peers.map (·.nodeId)).insertIdx insertPos me.nodeId
  { peers := addrs.insertIdx insertPos me.addr
    nodeIds := ids
    rank := (ids.findIdx? fun id => id == me.nodeId).getD 0
    worldSize := (topo.map (·.worldSize)).getD 0 + 1 }

/-- `arix_dist_connect`. -/
def connect (state : SharedState A) (call : Call A) : Option (SharedState A) :=
  (connectToPeerInner me state.peers call).map fun peers =>
    let peers := call.beforeRing.foldl (addPeer me) peers
    { peers := peers, topology := some (buildRing me peers state.topology) }

def step (state : SharedState A) : Event A → Option (SharedState A)
  | .connect call => connect me state call
  | .request peer => some { state with peers := addPeer me state.peers peer }

def run (state : SharedState A) : List (Event A) → Option (SharedState A)
  | [] => some state
  | e :: events => (step me state e).bind fun state => run state events

/-- What `ring_all_reduce_impl` does with the topology first. -/
inductive RingStart (A : Type*) where
  | skipped
  | panicked
  | neighbours (pred succ : A)

def ringStart (topo : RingTopology A) : RingStart A :=
  if topo.worldSize < 2 then .skipped
  else
    let pred := (topo.rank + topo.worldSize - 1) % topo.worldSize
    let succ := (topo.rank + 1) % topo.worldSize
    match topo.peers[pred]?, topo.peers[succ]? with
    | some predAddr, some succAddr => .neighbours predAddr succAddr
    | _, _ => .panicked

/-- The stored topology is as it should be. -/
structure Sound (state : SharedState A) (topo : RingTopology A) : Prop where
  worldSize : topo.worldSize = topo.nodeIds.length
  peers : topo.peers.length = topo.nodeIds.length
  nodup : topo.nodeIds.Nodup
  rank : topo.rank < topo.worldSize
  atRank : topo.nodeIds[topo.rank]? = some me.nodeId
  not_skipped : state.peers ≠ [] → ringStart topo ≠ .skipped
  not_panicked : ringStart topo ≠ .panicked

/-- The number of calls. -/
def connects (events : List (Event A)) : ℕ :=
  events.countP fun e => match e with
    | .connect _ => true
    | .request _ => false

/-- The ids of the peers to add, in the order in which they come up. -/
def offers : Event A → List UInt64
  | .connect call =>
    (call.resp.getD []).map (·.nodeId) ++ call.beforePeer.map (·.nodeId) ++
      me.nodeId :: call.beforeRing.map (·.nodeId)
  | .request peer => [peer.nodeId]

/-- The distinct ids that come up before that of the node itself. -/
def othersFirst (events : List (Event A)) : Finset UInt64 :=
  ((events.flatMap (offers me)).takeWhile (· ≠ me.nodeId)).toFinset

/-! ## The peers -/

section

variable {me : Self A} {peers peers' : List (PeerState A)}

def ids (peers : List (PeerState A)) : List UInt64 := peers.map (·.nodeId)

omit [LinearOrder A] in
theorem mayAdd_iff {nodeId : UInt64} :
    mayAdd me peers nodeId = true ↔ nodeId ∉ ids peers ∧ (ids peers).length < me.maxPeers := by
  simp [mayAdd, ids]

omit [LinearOrder A] in
theorem ids_addPeer (peers : List (PeerState A)) (p : PeerState A) :
    ids (addPeer me peers p) = add me.maxPeers (ids peers) p.nodeId := by
  unfold addPeer add
  simp only [mayAdd_iff]
  split_ifs
  · simp [ids]
  · rfl

omit [LinearOrder A] in
theorem ids_foldl_addPeer (l peers : List (PeerState A)) :
    ids (l.foldl (addPeer me) peers) =
      (l.map (·.nodeId)).foldl (add me.maxPeers) (ids peers) := by
  induction l generalizing peers with
  | nil => rfl
  | cons p l ih => rw [List.foldl_cons, ih, ids_addPeer, List.map_cons, List.foldl_cons]

omit [LinearOrder A] in
theorem ids_addDiscovered {l : List (PeerAddr A)} (h : addDiscovered me peers l = some peers') :
    ids peers' = (l.map (·.nodeId)).foldl (add me.maxPeers) (ids peers) := by
  induction l generalizing peers with
  | nil =>
    cases h
    rfl
  | cons p l ih =>
    unfold addDiscovered at h
    rw [List.map_cons, List.foldl_cons, add]
    split_ifs at h with hadd
    · obtain ⟨sock, -, h⟩ := Option.bind_eq_some_iff.mp h
      rw [if_pos (mayAdd_iff.mp hadd), ih h]
      simp [ids]
    · rw [mayAdd_iff] at hadd
      rw [if_neg hadd, ih h]

theorem connect_spec {state state' : SharedState A} {call : Call A}
    (h : connect me state call = some state') :
    ids state'.peers = (offers me (.connect call)).foldl (add me.maxPeers) (ids state.peers) ∧
      state'.topology = some (buildRing me state'.peers state.topology) := by
  obtain ⟨peers, hinner, rfl⟩ := Option.map_eq_some_iff.mp h
  obtain ⟨found, hfound, rfl⟩ := Option.map_eq_some_iff.mp hinner
  refine ⟨?_, rfl⟩
  rw [offers, List.foldl_append, List.foldl_append, List.foldl_cons, ← ids_addDiscovered hfound,
    ← ids_foldl_addPeer, ids_foldl_addPeer, ids_addPeer]

theorem step_ids {state state' : SharedState A} {e : Event A} (h : step me state e = some state') :
    ids state'.peers = (offers me e).foldl (add me.maxPeers) (ids state.peers) := by
  cases e with
  | connect call => exact (connect_spec h).1
  | request peer =>
    cases h
    exact ids_addPeer _ _

end

/-! ## The ring -/

section

variable {me : Self A} {peers : List (PeerState A)} {topo : Option (RingTopology A)}

theorem insertPos_le (me : Self A) (peers : List (PeerState A)) :
    ((peers.map (·.addr)).findIdx? fun a => me.addr < a).getD (peers.map (·.addr)).length ≤
      peers.length := by
  cases hpos : (peers.map (·.addr)).findIdx? fun a => me.addr < a with
  | none => simp
  | some i =>
    obtain ⟨hi, -⟩ := List.findIdx?_eq_some_iff_getElem.mp hpos
    rw [List.length_map] at hi
    exact hi.le

theorem nodeIds_buildRing (peers : List (PeerState A)) (topo : Option (RingTopology A)) :
    (buildRing me peers topo).nodeIds.Perm (me.nodeId :: ids peers) := by
  exact List.perm_insertIdx _ _ ((insertPos_le me peers).trans_eq (List.length_map _).symm)

theorem length_nodeIds_buildRing (peers : List (PeerState A)) (topo : Option (RingTopology A)) :
    (buildRing me peers topo).nodeIds.length = (ids peers).length + 1 :=
  (nodeIds_buildRing peers topo).length_eq

theorem length_peers_buildRing (peers : List (PeerState A)) (topo : Option (RingTopology A)) :
    (buildRing me peers topo).peers.length = (buildRing me peers topo).nodeIds.length := by
  rw [length_nodeIds_buildRing]
  show (List.insertIdx _ _ _).length = _
  rw [List.length_insertIdx_of_le_length ((insertPos_le me peers).trans_eq (List.length_map _).symm)]
  simp [ids]

theorem rank_buildRing (peers : List (PeerState A)) (topo : Option (RingTopology A)) :
    (buildRing me peers topo).nodeIds[(buildRing me peers topo).rank]? = some me.nodeId := by
  have hmem : me.nodeId ∈ (buildRing me peers topo).nodeIds :=
    (nodeIds_buildRing peers topo).mem_iff.mpr List.mem_cons_self
  have hrank : (buildRing me peers topo).rank =
      ((buildRing me peers topo).nodeIds.findIdx? fun id => id == me.nodeId).getD 0 := rfl
  cases hfind : (buildRing me peers topo).nodeIds.findIdx? fun id => id == me.nodeId with
  | none =>
    have := List.findIdx?_eq_none_iff.mp hfind _ hmem
    simp at this
  | some i =>
    obtain ⟨hi, heq, -⟩ := List.findIdx?_eq_some_iff_getElem.mp hfind
    rw [hrank, hfind, Option.getD_some, List.getElem?_eq_getElem hi, eq_of_beq heq]

theorem nodup_buildRing_iff (hids : (ids peers).Nodup) :
    (buildRing me peers topo).nodeIds.Nodup ↔ me.nodeId ∉ ids peers := by
  rw [(nodeIds_buildRing peers topo).nodup_iff, List.nodup_cons]
  exact and_iff_left hids

end

/-! ## Runs -/

section

variable {me : Self A} {events : List (Event A)} {state state' : SharedState A} {topo : RingTopology A}

variable (me) in
/-- What a run has left: the peers are the first of the ids that came up, and the topology comes from
the peers at some moment after the id of the node has come up. -/
structure Inv (events : List (Event A)) (state : SharedState A) : Prop where
  peers : ids state.peers = (events.flatMap (offers me)).foldl (add me.maxPeers) []
  worldSize : (state.topology.map (·.worldSize)).getD 0 = connects events
  ring : ∀ topo, state.topology = some topo → ∃ sofar prev peers,
    sofar <+: events.flatMap (offers me) ∧ me.nodeId ∈ sofar ∧
      ids peers = sofar.foldl (add me.maxPeers) [] ∧ topo = buildRing me peers prev

theorem Inv.step {e : Event A} (h : Inv me events state)
    (hstep : Topology.step me state e = some state') : Inv me (events ++ [e]) state' := by
  have hoffers : (events ++ [e]).flatMap (offers me) = events.flatMap (offers me) ++ offers me e := by
    rw [List.flatMap_append, List.flatMap_singleton]
  have hpeers : ids state'.peers =
      ((events ++ [e]).flatMap (offers me)).foldl (add me.maxPeers) [] := by
    rw [step_ids hstep, h.peers, hoffers, List.foldl_append]
  refine ⟨hpeers, ?_, ?_⟩
  · rw [connects, List.countP_append, ← connects, ← h.worldSize]
    cases e with
    | connect call =>
      rw [(connect_spec hstep).2]
      rfl
    | request peer =>
      cases hstep
      rfl
  · intro topo htopo
    cases e with
    | connect call =>
      refine ⟨_, state.topology, state'.peers, List.prefix_rfl, ?_, hpeers, ?_⟩
      · rw [hoffers, offers]
        simp
      · rw [(connect_spec hstep).2] at htopo
        exact (Option.some.inj htopo).symm
    | request peer =>
      cases hstep
      obtain ⟨sofar, prev, peers, hpre, hrest⟩ := h.ring topo htopo
      refine ⟨sofar, prev, peers, ?_, hrest⟩
      rw [hoffers]
      exact hpre.trans (List.prefix_append _ _)

theorem init_inv : Inv me [] (init : SharedState A) := ⟨rfl, rfl, nofun⟩

theorem Inv.run {more : List (Event A)} (h : Inv me events state)
    (hrun : Topology.run me state more = some state') : Inv me (events ++ more) state' := by
  induction more generalizing events state with
  | nil =>
    cases hrun
    rwa [List.append_nil]
  | cons e more ih =>
    obtain ⟨mid, hstep, hrest⟩ := Option.bind_eq_some_iff.mp hrun
    rw [List.append_cons]
    exact ih (h.step hstep) hrest

theorem Inv.length_peers_le (h : Inv me events state) : state.peers.length ≤ me.maxPeers := by
  have hlen : (ids state.peers).length = state.peers.length := List.length_map _
  rw [← hlen, h.peers, length_foldl_add List.nodup_nil (Nat.zero_le _)]
  exact Nat.min_le_left _ _

theorem takeWhile_ne_of_prefix {x : UInt64} {l l' : List UInt64} (hpre : l <+: l') (hx : x ∈ l) :
    l'.takeWhile (· ≠ x) = l.takeWhile (· ≠ x) := by
  obtain ⟨rest, rfl⟩ := hpre
  obtain ⟨before, after, rfl, hbefore⟩ := List.eq_append_cons_of_mem hx
  rw [List.append_assoc, List.cons_append, takeWhile_ne_append_cons hbefore,
    takeWhile_ne_append_cons hbefore]

/-- Whether the id of the node is twice in the ring. -/
theorem Inv.nodup_iff (h : Inv me events state) (htopo : state.topology = some topo) :
    (topo.nodeIds.Nodup ↔ me.maxPeers ≤ (othersFirst me events).card) ∧
      (topo.nodeIds.Nodup → topo.nodeIds.length = me.maxPeers + 1) := by
  obtain ⟨sofar, prev, peers, hpre, hmem, hids, rfl⟩ := h.ring topo htopo
  have hnodup : (ids peers).Nodup := by
    rw [hids]
    exact nodup_foldl_add List.nodup_nil
  rw [nodup_buildRing_iff hnodup, hids]
  constructor
  · rw [notMem_foldl_add_iff hmem, othersFirst, takeWhile_ne_of_prefix hpre hmem]
  · intro hout
    rw [length_nodeIds_buildRing, hids, length_of_notMem hmem hout]

omit [LinearOrder A] in
theorem ringStart_ne_skipped (h : 2 ≤ topo.worldSize) : ringStart topo ≠ .skipped := by
  unfold ringStart
  rw [if_neg (by omega)]
  dsimp only
  split <;> nofun

omit [LinearOrder A] in
theorem ringStart_ne_panicked (h : topo.worldSize = topo.peers.length) :
    ringStart topo ≠ .panicked := by
  unfold ringStart
  split_ifs with hsize
  · nofun
  · have hpos : 0 < topo.worldSize := by omega
    have hpred : (topo.rank + topo.worldSize - 1) % topo.worldSize < topo.peers.length := by
      rw [← h]
      exact Nat.mod_lt _ hpos
    have hsucc : (topo.rank + 1) % topo.worldSize < topo.peers.length := by
      rw [← h]
      exact Nat.mod_lt _ hpos
    dsimp only
    rw [List.getElem?_eq_getElem hpred, List.getElem?_eq_getElem hsucc]
    nofun

/-- The topology that a sequence of calls leaves is sound just when there is one call more than there
is room for peers, and as many other ids as there is room for have come up before that of the node. -/
theorem sound_iff (hrun : run me init events = some state) (htopo : state.topology = some topo) :
    Sound me state topo ↔
      connects events = me.maxPeers + 1 ∧ me.maxPeers ≤ (othersFirst me events).card := by
  have hinv : Inv me events state := init_inv.run hrun
  obtain ⟨hnodup, hlen⟩ := hinv.nodup_iff htopo
  have hworld : topo.worldSize = connects events := by
    rw [← hinv.worldSize, htopo]
    rfl
  constructor
  · intro hsound
    refine ⟨?_, hnodup.mp hsound.nodup⟩
    rw [← hworld, hsound.worldSize, hlen hsound.nodup]
  · rintro ⟨hconnects, hothers⟩
    have hnd := hnodup.mpr hothers
    have hsize : topo.worldSize = topo.nodeIds.length := by
      rw [hworld, hconnects, hlen hnd]
    obtain ⟨sofar, prev, peers, -, -, -, hring⟩ := hinv.ring topo htopo
    have hpeers : topo.peers.length = topo.nodeIds.length := by
      rw [hring]
      exact length_peers_buildRing peers prev
    have hrank : topo.nodeIds[topo.rank]? = some me.nodeId := by
      rw [hring]
      exact rank_buildRing peers prev
    refine ⟨hsize, hpeers, hnd, ?_, hrank, fun hne => ?_, ringStart_ne_panicked (hsize.trans hpeers.symm)⟩
    · obtain ⟨hlt, -⟩ := List.getElem?_eq_some_iff.mp hrank
      exact hlt.trans_eq hsize.symm
    · -- a peer has found room
      have hroom := hinv.length_peers_le
      have hsome := List.length_pos_iff.mpr hne
      exact ringStart_ne_skipped (by omega)

/-- A call whose answer names the peers `resp`, with no requests. -/
def quietCall (addr : ℕ) (resp : List (PeerAddr ℕ)) : Event ℕ :=
  .connect { addr := addr, resp := some resp, beforePeer := [], beforeRing := [] }

/-- A node with room for one peer. -/
def smallNode : Self ℕ := { nodeId := 7, addr := 100, maxPeers := 1 }

/-- Two calls, the first of which finds a peer. -/
def twoCalls : List (Event ℕ) :=
  [quietCall 50 [{ nodeId := 3, sock := some 200 }], quietCall 50 []]

theorem sound_twoCalls : ∃ state topo, run smallNode init twoCalls = some state ∧
    state.topology = some topo ∧ Sound smallNode state topo := by
  refine ⟨_, _, rfl, rfl, ?_⟩
  refine (sound_iff (show run smallNode init twoCalls = some _ from rfl) rfl).mpr ?_
  decide

/-- After one call the ring has two entries, both with the id of the node, and the world size is one. -/
theorem not_sound_one_call : ∃ state topo,
    run { nodeId := 7, addr := 100, maxPeers := 32 } init [quietCall 50 []] = some state ∧
    state.topology = some topo ∧ ¬ Sound { nodeId := 7, addr := 100, maxPeers := 32 } state topo :=
  ⟨_, _, rfl, rfl, fun hsound => absurd hsound.worldSize (by decide)⟩

end

end SneppxAlg.Topology
