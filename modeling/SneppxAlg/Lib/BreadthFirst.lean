import Mathlib.Data.List.Chain
import SneppxAlg.Lib.Worklist

/-!
# Breadth-first search with links to the parents

Nodes are marked when they are found, linked to the node that they are found from, and put at the end of a
queue. The queue is an array of `cap` places that are used once. The search ends when the target is at the
front.

The number of links from a node back to the root is its depth. In the queue the depths do not go down, and
they differ by at most one (`Inv`). So the depth of the node at the front is the length of a shortest path to
it (`Inv.depth_le`), and the links lead back along such a path (`isPath_traceBack`).
-/

namespace Lib.BreadthFirst

open Lib.Worklist (Edge Reach)

variable {α : Type*} [DecidableEq α]

/-- The marks, the links, what is left in the queue, and how many nodes have been taken from it. -/
structure State (α : Type*) where
  visited : α → Bool
  parent : α → Option α
  queue : List α
  taken : ℕ

/-- A node that has been found from `x`. -/
def State.add (cap : ℕ) (x : α) (s : State α) (y : α) : State α :=
  if s.visited y then s
  else
    { s with
      visited := Function.update s.visited y true
      parent := Function.update s.parent y (some x)
      queue := if s.taken + s.queue.length < cap then s.queue ++ [y] else s.queue }

/-- The round for the node at the front. -/
def State.round (cap : ℕ) (s : State α) (x : α) (rest ys : List α) : State α :=
  ys.foldl (State.add cap x) { s with queue := rest, taken := s.taken + 1 }

/-- The rounds, until the target is at the front or the queue is empty. -/
def find (succ : α → Option (List α)) (cap : ℕ) (target : α) : ℕ → State α → Option (Option (State α))
  | fuel, s =>
    match s.queue with
    | [] => some none
    | x :: rest =>
      if x = target then some (some s)
      else
        match fuel with
        | 0 => none
        | fuel + 1 => (succ x).bind fun ys => find succ cap target fuel (s.round cap x rest ys)

def start (root : α) : State α :=
  { visited := Function.update (fun _ => false) root true, parent := fun _ => none, queue := [root], taken := 0 }

/-- The nodes on the way back along the links, at most `room` of them. -/
def traceBack (parent : α → Option α) : (room : ℕ) → Option α → List α
  | 0, _ => []
  | _ + 1, none => []
  | n + 1, some x => x :: traceBack parent n (parent x)

/-- A path along a relation. -/
def IsPath (r : α → α → Prop) (a b : α) (l : List α) : Prop :=
  l.IsChain r ∧ l.head? = some a ∧ l.getLast? = some b

/-- A path with as few nodes as possible. -/
def IsShortest (r : α → α → Prop) (a b : α) (l : List α) : Prop :=
  IsPath r a b l ∧ ∀ l', IsPath r a b l' → l.length ≤ l'.length

variable {succ : α → Option (List α)} {cap : ℕ} {nodes : Finset α} {root target x : α} {rest ys l : List α}
  {s : State α}

/-! ## One round -/

def marked (nodes : Finset α) (s : State α) : Finset α := nodes.filter fun y => s.visited y = true

theorem marked_update {y : α} (hy : y ∈ nodes) (hnew : s.visited y = false) :
    (nodes.filter fun z => Function.update s.visited y true z = true).card = (marked nodes s).card + 1 := by
  have hset : (nodes.filter fun z => Function.update s.visited y true z = true) = insert y (marked nodes s) := by
    ext z
    by_cases hz : z = y
    · simp [hz, hy]
    · simp [hz, marked]
  rw [hset, Finset.card_insert_of_notMem (by simp [marked, hnew])]

/-- What a round adds, where each marked node has its place in the queue. -/
structure Adds (s t : State α) (x : α) (ys new : List α) : Prop where
  queue : t.queue = s.queue ++ new
  taken : t.taken = s.taken
  nodup : new.Nodup
  mem : ∀ y ∈ new, y ∈ ys ∧ s.visited y = false
  visited : ∀ z, t.visited z = true ↔ s.visited z = true ∨ z ∈ new
  all : ∀ y ∈ ys, t.visited y = true
  parent : ∀ z, t.parent z = if z ∈ new then some x else s.parent z

theorem Adds.cons_old {t : State α} {new : List α} {y : α} (h : Adds s t x ys new) (hvisited : s.visited y = true) :
    Adds s t x (y :: ys) new :=
  { h with
    mem := fun z hz => ⟨List.mem_cons_of_mem _ (h.mem z hz).1, (h.mem z hz).2⟩
    all := List.forall_mem_cons.mpr ⟨(h.visited y).mpr (.inl hvisited), h.all⟩ }

/-- `s` with a new node at the end of the queue. -/
def State.push (s : State α) (x y : α) : State α :=
  { s with
    visited := Function.update s.visited y true
    parent := Function.update s.parent y (some x)
    queue := s.queue ++ [y] }

theorem State.visited_push {y z : α} : (s.push x y).visited z = true ↔ s.visited z = true ∨ z = y := by
  by_cases hz : z = y <;> simp [State.push, hz]

theorem Adds.cons_new {t : State α} {new : List α} {y : α} (h : Adds (s.push x y) t x ys new)
    (hvisited : s.visited y = false) : Adds s t x (y :: ys) (y :: new) := by
  have hfresh : ∀ z ∈ new, z ≠ y ∧ s.visited z = false := by
    intro z hz
    have hfalse := (h.mem z hz).2
    rw [← Bool.not_eq_true, State.visited_push, not_or, Bool.not_eq_true] at hfalse
    exact hfalse.symm
  have hnot : y ∉ new := fun hmem => (hfresh y hmem).1 rfl
  refine ⟨?_, h.taken, List.nodup_cons.mpr ⟨hnot, h.nodup⟩, ?_, fun z => ?_, ?_, fun z => ?_⟩
  · rw [h.queue, State.push, List.append_assoc, List.singleton_append]
  · refine List.forall_mem_cons.mpr ⟨⟨List.mem_cons_self, hvisited⟩, fun z hz => ?_⟩
    exact ⟨List.mem_cons_of_mem _ (h.mem z hz).1, (hfresh z hz).2⟩
  · rw [h.visited, State.visited_push, List.mem_cons, or_assoc]
  · exact List.forall_mem_cons.mpr ⟨(h.visited y).mpr (.inl (State.visited_push.mpr (.inr rfl))), h.all⟩
  · rw [h.parent]
    by_cases hz : z = y
    · subst hz
      simp [hnot, State.push]
    · simp [hz, State.push]

theorem exists_adds (hcap : nodes.card ≤ cap) (hys : ∀ y ∈ ys, y ∈ nodes)
    (hcount : (marked nodes s).card = s.taken + s.queue.length) :
    ∃ new, Adds s (ys.foldl (State.add cap x) s) x ys new ∧
      (marked nodes (ys.foldl (State.add cap x) s)).card = s.taken + s.queue.length + new.length := by
  induction ys generalizing s with
  | nil => exact ⟨[], ⟨by simp, rfl, by simp, by simp, by simp, by simp, by simp⟩, by simpa using hcount⟩
  | cons y ys ih =>
    obtain ⟨hy, hys⟩ := List.forall_mem_cons.mp hys
    rw [List.foldl_cons]
    cases hvisited : s.visited y with
    | true =>
      have heq : s.add cap x y = s := by rw [State.add, if_pos hvisited]
      obtain ⟨new, hadds, hcard⟩ := ih hys hcount
      rw [heq]
      exact ⟨new, hadds.cons_old hvisited, hcard⟩
    | false =>
      have hroom : s.taken + s.queue.length < cap := by
        have hlt : (marked nodes s).card < nodes.card :=
          Finset.card_lt_card ⟨Finset.filter_subset _ _, fun hsub => by simpa [marked, hvisited] using hsub hy⟩
        omega
      have heq : s.add cap x y = s.push x y := by
        rw [State.add, if_neg (by simp [hvisited]), if_pos hroom]
        rfl
      have hcount' : (marked nodes (s.push x y)).card = (s.push x y).taken + (s.push x y).queue.length := by
        rw [marked, State.push, marked_update hy hvisited, hcount, List.length_append]
        exact Nat.add_assoc _ _ _
      obtain ⟨new, hadds, hcard⟩ := ih hys hcount'
      rw [heq]
      refine ⟨y :: new, hadds.cons_new hvisited, ?_⟩
      rw [hcard]
      simp only [State.push, List.length_append, List.length_cons, List.length_nil]
      omega

/-! ## Depths -/

/-- What the search keeps; `d` is the depth of the marked nodes. -/
structure Inv (succ : α → Option (List α)) (nodes : Finset α) (root : α) (s : State α) (d : α → ℕ) : Prop where
  root_visited : s.visited root = true
  root_depth : d root = 0
  root_parent : s.parent root = none
  parent : ∀ y, s.visited y = true → y ≠ root →
    ∃ p, s.parent y = some p ∧ s.visited p = true ∧ Edge succ p y ∧ d y = d p + 1
  queue_visited : ∀ y ∈ s.queue, s.visited y = true
  queue_nodes : ∀ y ∈ s.queue, y ∈ nodes
  nodup : s.queue.Nodup
  sorted : s.queue.Pairwise fun y z => d y ≤ d z
  spread : ∀ y ∈ s.queue, ∀ z ∈ s.queue, d z ≤ d y + 1
  done_edges : ∀ z, s.visited z = true → z ∉ s.queue →
    ∀ y, Edge succ z y → s.visited y = true ∧ d y ≤ d z + 1
  done_le : ∀ z, s.visited z = true → z ∉ s.queue → ∀ y ∈ s.queue, d z ≤ d y
  count : (marked nodes s).card = s.taken + s.queue.length

theorem start_inv (hroot : root ∈ nodes) : Inv succ nodes root (start root) fun _ => 0 := by
  have honly : ∀ z, (start root).visited z = true → z = root := by
    intro z hz
    by_contra hne
    simp [start, hne] at hz
  have hmarked : marked nodes (start root) = {root} := by
    ext z
    rw [marked, Finset.mem_filter, Finset.mem_singleton]
    refine ⟨fun h => honly z h.2, ?_⟩
    rintro rfl
    exact ⟨hroot, by simp [start]⟩
  have hin : ∀ z, (start root).visited z = true → z ∉ (start root).queue → False := by
    intro z hz hnot
    exact hnot (honly z hz ▸ List.mem_cons_self)
  exact
    { root_visited := by simp [start]
      root_depth := rfl
      root_parent := rfl
      parent := fun y hy hne => absurd (honly y hy) hne
      queue_visited := by simp [start]
      queue_nodes := by simpa [start] using hroot
      nodup := by simp [start]
      sorted := by simp [start]
      spread := by simp [start]
      done_edges := fun z hz hnot => (hin z hz hnot).elim
      done_le := fun z hz hnot => (hin z hz hnot).elim
      count := by rw [hmarked]; rfl }

/-- The nodes that a round adds are one link deeper than the node at the front; the others keep their depth. -/
def depthAfter (d : α → ℕ) (x : α) (new : List α) (z : α) : ℕ := if z ∈ new then d x + 1 else d z

section Round

variable {d : α → ℕ} {t : State α} {new : List α} {y z : α}

theorem depthAfter_new (hz : z ∈ new) : depthAfter d x new z = d x + 1 := if_pos hz

theorem Adds.notMem_new (h : Adds s t x ys new) (hz : s.visited z = true) : z ∉ new := fun hmem => by
  have hfalse := (h.mem _ hmem).2
  simp [hz] at hfalse

theorem Adds.depthAfter_old (h : Adds s t x ys new) (hz : s.visited z = true) : depthAfter d x new z = d z :=
  if_neg (h.notMem_new hz)

/-- The marked nodes that have left the queue. -/
theorem Adds.done (h : Adds { s with queue := rest, taken := s.taken + 1 } t x ys new) (hqueue : s.queue = x :: rest)
    (hz : t.visited z = true) (hnot : z ∉ t.queue) : z = x ∨ (s.visited z = true ∧ z ∉ s.queue) := by
  rw [h.queue, List.mem_append, not_or] at hnot
  refine or_iff_not_imp_left.mpr fun hne => ⟨((h.visited z).mp hz).resolve_right hnot.2, ?_⟩
  rw [hqueue]
  exact List.not_mem_cons_of_ne_of_not_mem hne hnot.1

omit [DecidableEq α] in
/-- No marked node is deeper than the next link from the front. -/
theorem Inv.depth_le_succ (h : Inv succ nodes root s d) (hx : x ∈ s.queue) (hy : s.visited y = true) :
    d y ≤ d x + 1 := by
  by_cases hmem : y ∈ s.queue
  · exact h.spread x hx y hmem
  · exact (h.done_le y hy hmem x hx).trans (Nat.le_succ _)

theorem Inv.depthAfter_queue (h : Inv succ nodes root s d) (hqueue : s.queue = x :: rest)
    (hadds : Adds { s with queue := rest, taken := s.taken + 1 } t x ys new) (hy : y ∈ rest ++ new) :
    d x ≤ depthAfter d x new y ∧ depthAfter d x new y ≤ d x + 1 := by
  have hsorted := List.pairwise_cons.mp (hqueue ▸ h.sorted)
  have hx : x ∈ s.queue := hqueue ▸ List.mem_cons_self
  rcases List.mem_append.mp hy with hy | hy
  · have hmem : y ∈ s.queue := hqueue ▸ List.mem_cons_of_mem _ hy
    rw [hadds.depthAfter_old (h.queue_visited y hmem)]
    exact ⟨hsorted.1 y hy, h.spread x hx y hmem⟩
  · rw [depthAfter_new hy]
    exact ⟨Nat.le_succ _, le_rfl⟩

/-- The parents and the depths agree after a round. -/
theorem Inv.parent_round (h : Inv succ nodes root s d) (hx : x ∈ s.queue) (hsucc : succ x = some ys)
    (hadds : Adds { s with queue := rest, taken := s.taken + 1 } t x ys new) (hy : t.visited y = true)
    (hne : y ≠ root) : ∃ p, t.parent y = some p ∧ t.visited p = true ∧ Edge succ p y ∧
      depthAfter d x new y = depthAfter d x new p + 1 := by
  rcases (hadds.visited y).mp hy with hy | hy
  · obtain ⟨p, hp, hvisited, hpy, hdepth⟩ := h.parent y hy hne
    refine ⟨p, ?_, (hadds.visited p).mpr (.inl hvisited), hpy, ?_⟩
    · rw [hadds.parent, if_neg (hadds.notMem_new hy)]
      exact hp
    · rw [hadds.depthAfter_old hy, hadds.depthAfter_old hvisited, hdepth]
  · have hvisited := h.queue_visited x hx
    refine ⟨x, by rw [hadds.parent, if_pos hy], (hadds.visited x).mpr (.inl hvisited),
      ⟨ys, hsucc, (hadds.mem y hy).1⟩, ?_⟩
    rw [depthAfter_new hy, hadds.depthAfter_old hvisited]

/-- The successors of the nodes that have left the queue are marked. -/
theorem Inv.done_edges_round (h : Inv succ nodes root s d) (hqueue : s.queue = x :: rest)
    (hsucc : succ x = some ys) (hadds : Adds { s with queue := rest, taken := s.taken + 1 } t x ys new)
    (hz : t.visited z = true) (hnot : z ∉ t.queue) (hzy : Edge succ z y) :
    t.visited y = true ∧ depthAfter d x new y ≤ depthAfter d x new z + 1 := by
  have hx : x ∈ s.queue := hqueue ▸ List.mem_cons_self
  rcases hadds.done hqueue hz hnot with rfl | ⟨hz', hnot'⟩
  · obtain ⟨ys', hsucc', hy⟩ := hzy
    obtain rfl := Option.some.inj (hsucc.symm.trans hsucc')
    refine ⟨hadds.all y hy, ?_⟩
    rw [hadds.depthAfter_old (h.queue_visited z hx)]
    rcases (hadds.visited y).mp (hadds.all y hy) with hy | hy
    · rw [hadds.depthAfter_old hy]
      exact h.depth_le_succ hx hy
    · exact (depthAfter_new hy).le
  · obtain ⟨hy, hle⟩ := h.done_edges z hz' hnot' y hzy
    exact ⟨(hadds.visited y).mpr (.inl hy), by rwa [hadds.depthAfter_old hy, hadds.depthAfter_old hz']⟩

theorem Inv.of_adds (h : Inv succ nodes root s d) (hqueue : s.queue = x :: rest) (hsucc : succ x = some ys)
    (hys : ∀ y ∈ ys, y ∈ nodes) (hadds : Adds { s with queue := rest, taken := s.taken + 1 } t x ys new)
    (hcard : (marked nodes t).card = t.taken + t.queue.length) : Inv succ nodes root t (depthAfter d x new) := by
  have hx : x ∈ s.queue := hqueue ▸ List.mem_cons_self
  have hrest : ∀ {y}, y ∈ rest → y ∈ s.queue := fun hy => hqueue ▸ List.mem_cons_of_mem _ hy
  have hqueue' : t.queue = rest ++ new := hadds.queue
  have hnodup := hqueue ▸ h.nodup
  have hsorted := List.pairwise_cons.mp (hqueue ▸ h.sorted)
  have hold : ∀ {y}, y ∈ rest → depthAfter d x new y = d y :=
    fun hy => hadds.depthAfter_old (h.queue_visited _ (hrest hy))
  exact
    { root_visited := (hadds.visited root).mpr (.inl h.root_visited)
      root_depth := by rw [hadds.depthAfter_old h.root_visited, h.root_depth]
      root_parent := by
        rw [hadds.parent, if_neg (hadds.notMem_new h.root_visited)]
        exact h.root_parent
      parent := fun y hy hne => h.parent_round hx hsucc hadds hy hne
      queue_visited := fun y hy => by
        rw [hqueue'] at hy
        rw [hadds.visited]
        exact (List.mem_append.mp hy).imp (fun hy => h.queue_visited y (hrest hy)) id
      queue_nodes := fun y hy => by
        rw [hqueue'] at hy
        rcases List.mem_append.mp hy with hy | hy
        · exact h.queue_nodes y (hrest hy)
        · exact hys y (hadds.mem y hy).1
      nodup := by
        rw [hqueue']
        exact (List.nodup_cons.mp hnodup).2.append hadds.nodup
          fun y hy hmem => hadds.notMem_new (h.queue_visited y (hrest hy)) hmem
      sorted := by
        rw [hqueue', List.pairwise_append]
        refine ⟨hsorted.2.imp_of_mem fun {y z} hy hz hle => ?_, ?_, fun y hy z hz => ?_⟩
        · rwa [hold hy, hold hz]
        · exact List.Pairwise.imp_of_mem (fun hy hz _ => by rw [depthAfter_new hy, depthAfter_new hz])
            (List.pairwise_of_forall (R := fun _ _ : α => True) fun _ _ => trivial)
        · rw [depthAfter_new hz]
          exact (h.depthAfter_queue hqueue hadds (List.mem_append_left _ hy)).2
      spread := fun y hy z hz => by
        rw [hqueue'] at hy hz
        have hle := (h.depthAfter_queue hqueue hadds hy).1
        exact (h.depthAfter_queue hqueue hadds hz).2.trans (Nat.succ_le_succ hle)
      done_edges := fun z hz hnot y hzy => h.done_edges_round hqueue hsucc hadds hz hnot hzy
      done_le := fun z hz hnot y hy => by
        rw [hqueue'] at hy
        have hle := (h.depthAfter_queue hqueue hadds hy).1
        rcases hadds.done hqueue hz hnot with rfl | ⟨hz', hnot'⟩
        · rwa [hadds.depthAfter_old (h.queue_visited z hx)]
        · rw [hadds.depthAfter_old hz']
          exact (h.done_le z hz' hnot' x hx).trans hle
      count := hcard }

theorem Inv.round (hcap : nodes.card ≤ cap) (h : Inv succ nodes root s d)
    (hqueue : s.queue = x :: rest) (hsucc : succ x = some ys) (hys : ∀ y ∈ ys, y ∈ nodes) :
    ∃ d', Inv succ nodes root (s.round cap x rest ys) d' ∧ (s.round cap x rest ys).taken = s.taken + 1 ∧
      ∀ z, (s.round cap x rest ys).visited z = true → z ∉ (s.round cap x rest ys).queue →
        z = x ∨ (s.visited z = true ∧ z ∉ s.queue) := by
  have hlen : s.queue.length = rest.length + 1 := by rw [hqueue, List.length_cons]
  have hcount : (marked nodes s).card = s.taken + 1 + rest.length := by
    rw [h.count, hlen]
    omega
  obtain ⟨new, hadds, hcard⟩ := @exists_adds _ _ cap nodes x ys { s with queue := rest, taken := s.taken + 1 }
    hcap hys hcount
  have hround : ys.foldl (State.add cap x) { s with queue := rest, taken := s.taken + 1 } =
      s.round cap x rest ys := rfl
  rw [hround] at hadds hcard
  refine ⟨_, h.of_adds hqueue hsucc hys hadds ?_, hadds.taken, fun z hz hnot => hadds.done hqueue hz hnot⟩
  rw [hcard, hadds.queue, hadds.taken, List.length_append, Nat.add_assoc]

end Round

/-! ## Paths -/

section

variable {r : α → α → Prop} {a b z : α}

omit [DecidableEq α]

theorem IsPath.concat (h : IsPath r a z l) (hedge : r z b) : IsPath r a b (l ++ [b]) := by
  obtain ⟨hchain, hhead, hlast⟩ := h
  refine ⟨List.isChain_append.mpr ⟨hchain, List.isChain_singleton b, fun y hy w hw => ?_⟩, ?_, by simp⟩
  · rw [hlast, Option.mem_some_iff] at hy
    rw [List.head?_singleton, Option.mem_some_iff] at hw
    exact hy ▸ hw ▸ hedge
  · rw [List.head?_append, hhead, Option.some_or]

theorem IsPath.exists_concat (h : IsPath r a b l) :
    (l = [b] ∧ a = b) ∨ ∃ z l', l = l' ++ [b] ∧ IsPath r a z l' ∧ r z b := by
  obtain ⟨hchain, hhead, hlast⟩ := h
  obtain ⟨l', rfl⟩ := List.getLast?_eq_some_iff.mp hlast
  rcases List.eq_nil_or_concat' l' with rfl | ⟨l'', z, rfl⟩
  · exact .inl ⟨rfl, (Option.some.inj hhead).symm⟩
  · obtain ⟨hchain', -, hedge⟩ := List.isChain_append.mp hchain
    refine .inr ⟨z, l'' ++ [z], rfl, ⟨hchain', ?_, by simp⟩, hedge z (by simp) b (by simp)⟩
    rwa [List.head?_append_of_ne_nil _ (by simp)] at hhead

theorem IsPath.reach (h : IsPath r a b l) : Relation.ReflTransGen r a b := by
  induction hn : l.length generalizing l b with
  | zero =>
    obtain rfl := List.length_eq_zero_iff.mp hn
    simpa using h.2.1
  | succ n ih =>
    rcases h.exists_concat with ⟨-, rfl⟩ | ⟨z, l', rfl, hpath, hedge⟩
    · exact .refl
    · exact (ih hpath (by simpa using hn)).tail hedge

theorem IsPath.length_pos (h : IsPath r a b l) : 0 < l.length := by
  refine List.length_pos_iff.mpr ?_
  rintro rfl
  simpa using h.2.1

theorem isPath_singleton (a : α) : IsPath r a a [a] := ⟨List.isChain_singleton a, rfl, rfl⟩

theorem length_traceBack_le (parent : α → Option α) (n : ℕ) (node : Option α) :
    (traceBack parent n node).length ≤ n := by
  induction n generalizing node with
  | zero => simp [traceBack]
  | succ n ih =>
    cases node with
    | none => simp [traceBack]
    | some x => simpa [traceBack] using ih (parent x)

theorem length_traceBack_pos (parent : α → Option α) {n : ℕ} (hn : 0 < n) (x : α) :
    0 < (traceBack parent n (some x)).length := by
  cases n with
  | zero => exact absurd hn (Nat.lt_irrefl 0)
  | succ n => simp [traceBack]

end

section

variable {d : α → ℕ} {y : α}

/-- A path is at least as long as the depth of its end, if that is marked, or else it is longer than the depth
of the node at the front. -/
theorem Inv.depth_le (h : Inv succ nodes root s d) (hqueue : s.queue = x :: rest) (hl : IsPath (Edge succ) root y l) :
    (s.visited y = true ∧ d y + 1 ≤ l.length) ∨ d x + 1 < l.length := by
  induction hn : l.length generalizing l y with
  | zero =>
    obtain rfl := List.length_eq_zero_iff.mp hn
    simpa using hl.2.1
  | succ n ih =>
    rcases hl.exists_concat with ⟨-, rfl⟩ | ⟨z, l', rfl, hpath, hedge⟩
    · exact .inl ⟨h.root_visited, by rw [h.root_depth]; omega⟩
    · rcases ih hpath (by simpa using hn) with ⟨hz, hle⟩ | hlt
      · by_cases hmem : z ∈ s.queue
        · have hxz : d x ≤ d z := by
            rw [hqueue, List.mem_cons] at hmem
            rcases hmem with rfl | hmem
            · exact le_rfl
            · exact (List.pairwise_cons.mp (hqueue ▸ h.sorted)).1 z hmem
          exact .inr (by omega)
        · obtain ⟨hy, hdy⟩ := h.done_edges z hz hmem y hedge
          exact .inl ⟨hy, by omega⟩
      · exact .inr (by omega)

omit [DecidableEq α] in
theorem Inv.visited_of_reach (h : Inv succ nodes root s d) (hqueue : s.queue = []) (hy : Reach succ root y) :
    s.visited y = true := by
  induction hy with
  | refl => exact h.root_visited
  | tail _ hedge ih => exact (h.done_edges _ ih (by simp [hqueue]) _ hedge).1

/-- With enough room, the links give a path, of the length that the depth says. -/
theorem Inv.isPath_traceBack (h : Inv succ nodes root s d) {n : ℕ} (hx : s.visited x = true) (hroom : d x < n) :
    IsPath (Edge succ) root x (traceBack s.parent n (some x)).reverse ∧
      (traceBack s.parent n (some x)).length = d x + 1 := by
  induction n generalizing x with
  | zero => exact absurd hroom (Nat.not_lt_zero _)
  | succ n ih =>
    by_cases hne : x = root
    · have hstop : traceBack s.parent n (s.parent x) = [] := by
        rw [hne, h.root_parent]
        cases n <;> rfl
      rw [traceBack, hstop, hne, h.root_depth]
      exact ⟨isPath_singleton root, rfl⟩
    · obtain ⟨p, hp, hvisited, hedge, hdepth⟩ := h.parent x hx hne
      obtain ⟨hpath, hlen⟩ := ih hvisited (by omega)
      rw [traceBack, hp, List.reverse_cons, List.length_cons, hlen, hdepth]
      exact ⟨hpath.concat hedge, rfl⟩

/-- At the front, this is a shortest path. -/
theorem Inv.isShortest (h : Inv succ nodes root s d) {n : ℕ} (hqueue : s.queue = x :: rest) (hroom : d x < n) :
    IsShortest (Edge succ) root x (traceBack s.parent n (some x)).reverse := by
  have hx : s.visited x = true := h.queue_visited x (hqueue ▸ List.mem_cons_self)
  obtain ⟨hpath, hlen⟩ := h.isPath_traceBack hx hroom
  refine ⟨hpath, fun l' hl' => ?_⟩
  rw [List.length_reverse, hlen]
  rcases h.depth_le hqueue hl' with ⟨-, hle⟩ | hlt
  · exact hle
  · exact hlt.le

end

/-! ## The search -/

section

variable {fuel : ℕ}

theorem find_nil (hqueue : s.queue = []) : find succ cap target fuel s = some none := by
  unfold find
  simp [hqueue]

theorem find_target (hqueue : s.queue = target :: rest) : find succ cap target fuel s = some (some s) := by
  unfold find
  simp [hqueue]

theorem find_zero (hqueue : s.queue = x :: rest) (hne : x ≠ target) : find succ cap target 0 s = none := by
  unfold find
  simp [hqueue, hne]

theorem find_succ (hqueue : s.queue = x :: rest) (hne : x ≠ target) :
    find succ cap target (fuel + 1) s = (succ x).bind fun ys => find succ cap target fuel (s.round cap x rest ys) := by
  rw [find]
  simp [hqueue, hne]

end

theorem queue_cases (target : α) (s : State α) :
    s.queue = [] ∨ (∃ rest, s.queue = target :: rest) ∨ ∃ x rest, s.queue = x :: rest ∧ x ≠ target := by
  cases hqueue : s.queue with
  | nil => exact .inl rfl
  | cons x rest =>
    by_cases hx : x = target
    · exact .inr (.inl ⟨rest, hx ▸ rfl⟩)
    · exact .inr (.inr ⟨x, rest, rfl, hx⟩)

/-- What a search that ends has found. -/
def Found (succ : α → Option (List α)) (nodes : Finset α) (root target : α) : Option (State α) → Prop
  | none => ¬ Reach succ root target
  | some t => ∃ d rest, Inv succ nodes root t d ∧ t.queue = target :: rest

omit [DecidableEq α] in
theorem Inv.found_nil {d : α → ℕ} (h : Inv succ nodes root s d)
    (hnot : ∀ z, s.visited z = true → z ∉ s.queue → z ≠ target) (hqueue : s.queue = []) :
    Found succ nodes root target none :=
  fun hreach => hnot target (h.visited_of_reach hqueue hreach) (by simp [hqueue]) rfl

theorem Inv.found_of_ends {d : α → ℕ} (h : Inv succ nodes root s d)
    (hnot : ∀ z, s.visited z = true → z ∉ s.queue → z ≠ target)
    (hends : s.queue = [] ∨ ∃ rest, s.queue = target :: rest) {r : Option (State α)}
    (hr : find succ cap target fuel s = some r) : Found succ nodes root target r := by
  rcases hends with hqueue | ⟨rest, hqueue⟩
  · obtain rfl := Option.some.inj ((find_nil hqueue).symm.trans hr)
    exact h.found_nil hnot hqueue
  · obtain rfl := Option.some.inj ((find_target hqueue).symm.trans hr)
    exact ⟨d, rest, h, hqueue⟩

theorem find_spec (hcap : nodes.card ≤ cap)
    (hclosed : ∀ x ∈ nodes, ∀ ys, succ x = some ys → ∀ y ∈ ys, y ∈ nodes) {fuel : ℕ} {d : α → ℕ}
    (h : Inv succ nodes root s d) (hnot : ∀ z, s.visited z = true → z ∉ s.queue → z ≠ target)
    {r : Option (State α)} (hr : find succ cap target fuel s = some r) : Found succ nodes root target r := by
  induction fuel generalizing s d with
  | zero =>
    rcases queue_cases target s with hqueue | hqueue | ⟨x, rest, hqueue, hx⟩
    · exact h.found_of_ends hnot (.inl hqueue) hr
    · exact h.found_of_ends hnot (.inr hqueue) hr
    · simp [find_zero hqueue hx] at hr
  | succ fuel ih =>
    rcases queue_cases target s with hqueue | hqueue | ⟨x, rest, hqueue, hx⟩
    · exact h.found_of_ends hnot (.inl hqueue) hr
    · exact h.found_of_ends hnot (.inr hqueue) hr
    · rw [find_succ hqueue hx] at hr
      obtain ⟨ys, hsucc, hr⟩ := Option.bind_eq_some_iff.mp hr
      have hnode : x ∈ nodes := h.queue_nodes x (hqueue ▸ List.mem_cons_self)
      obtain ⟨d', h', -, hdone⟩ := h.round hcap hqueue hsucc (hclosed x hnode ys hsucc)
      refine ih h' (fun z hz hmem => ?_) hr
      rcases hdone z hz hmem with rfl | ⟨hz', hmem'⟩
      · exact hx
      · exact hnot z hz' hmem'

variable (target) in
/-- The search ends if all successors are defined: each round takes one of the nodes. -/
theorem find_total (hcap : nodes.card ≤ cap)
    (hclosed : ∀ x ∈ nodes, ∃ ys, succ x = some ys ∧ ∀ y ∈ ys, y ∈ nodes) {fuel : ℕ} {d : α → ℕ}
    (h : Inv succ nodes root s d) (hfuel : nodes.card ≤ fuel + s.taken) :
    ∃ r, find succ cap target fuel s = some r := by
  have hcount : s.taken + s.queue.length ≤ nodes.card :=
    h.count.symm.trans_le (Finset.card_filter_le _ _)
  induction fuel generalizing s d with
  | zero => exact ⟨none, find_nil (List.length_eq_zero_iff.mp (by omega))⟩
  | succ fuel ih =>
    rcases queue_cases target s with hqueue | ⟨rest, hqueue⟩ | ⟨x, rest, hqueue, hx⟩
    · exact ⟨none, find_nil hqueue⟩
    · exact ⟨some s, find_target hqueue⟩
    · obtain ⟨ys, hsucc, hys⟩ := hclosed x (h.queue_nodes x (hqueue ▸ List.mem_cons_self))
      obtain ⟨d', h', htaken, -⟩ := h.round hcap hqueue hsucc hys
      rw [find_succ hqueue hx, hsucc, Option.bind_some]
      exact ih h' (by omega) (h'.count.symm.trans_le (Finset.card_filter_le _ _))

end Lib.BreadthFirst
