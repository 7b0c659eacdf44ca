import SneppxAlg.Lib.GuardedRun
import SneppxAlg.Lib.Recency
import Mathlib.Data.List.Perm.Basic
import Mathlib.Tactic.Linarith

/-!
# `semantic.c`: the graph of concepts

Concepts are kept in slots, with a counter of accesses as the time of their last use, and edges join
slots. `SpecStep` says what the graph is for: a map of at most `max_concepts` keys from which a new
key drives out the least recently used one, with at most `max_edges` edges between its keys.

The code departs from it. A slot or an edge that was given up is not used again, so that the room for
new ones shrinks with every `forget`; when the slots have run out, a concept is driven out even if
fewer than `max_concepts` are left, and if there is none that was used before the last access, then
the store fails. Keys are cut when they are stored, but compared in full. `run_refines` says that runs
that stay clear of these cases follow `SpecStep`.

Memory is taken to suffice. What `retrieve` computes from the embeddings does not change the graph;
the model has its accesses and the number of its results.
-/

namespace SneppxAlg.SemanticMemory

open Lib.GuardedRun Lib.Recency

/-! ## The graph -/

/-- A C string, without the byte that ends it. -/
abbrev Key := List UInt8

/-- `SNEPPX_MAX_CONCEPT_KEY_LEN`. -/
def maxKeyLen : ℕ := 128

variable {V W : Type}

/-- `SNEPPXSemanticConcept`. -/
structure Concept (V : Type) where
  key : Key
  embedding : Option V
  lastAccess : ℕ
  valid : Bool

def Concept.blank : Concept V := ⟨[], none, 0, false⟩

/-- `SNEPPXSemanticEdge`. -/
structure Edge (W : Type) where
  fromIdx : ℕ
  toIdx : ℕ
  weight : W
  valid : Bool

/-- `SNEPPXSemanticGraph`; `edges` are the first `num_edges` of the array. -/
structure Graph (V W : Type) where
  concepts : ℕ → Concept V
  numConcepts : ℕ
  maxConcepts : ℕ
  edges : List (Edge W)
  maxEdges : ℕ
  accessCounter : ℕ

/-- `sneppx_semantic_create`. -/
def create (maxConcepts maxEdges : ℕ) : Graph V W where
  concepts := fun _ => .blank
  numConcepts := 0
  maxConcepts := if 0 < maxConcepts then maxConcepts else 100
  edges := []
  maxEdges := if 0 < maxEdges then maxEdges else 500
  accessCounter := 0

/-- The conversion of a `size_t` to `int`. -/
def toInt (i : ℕ) : ℤ := Int.bmod i (2 ^ 32)

def findConceptIdx (g : Graph V W) (key : Key) : ℤ :=
  match (List.range g.numConcepts).find? fun i =>
    (g.concepts i).valid && (g.concepts i).key == key with
  | some i => toInt i
  | none => -1

/-- One turn of the search for the least recently used concept: its access and its index. -/
def lruStep (g : Graph V W) (acc : ℕ × ℤ) (i : ℕ) : ℕ × ℤ :=
  if (g.concepts i).valid ∧ (g.concepts i).lastAccess < acc.1 then
    ((g.concepts i).lastAccess, toInt i)
  else acc

def lruIdx (g : Graph V W) : ℤ :=
  ((List.range g.numConcepts).foldl (lruStep g) (g.accessCounter, -1)).2

/-- The edges at a slot become invalid. -/
def dropEdges (i : ℕ) (edges : List (Edge W)) : List (Edge W) :=
  edges.map fun e => if e.valid ∧ (e.fromIdx = i ∨ e.toIdx = i) then { e with valid := false } else e

/-- The concept in a slot is given up, with its edges. -/
def clearSlot (g : Graph V W) (i : ℕ) : Graph V W :=
  { g with
    concepts := Function.update g.concepts i
      { g.concepts i with key := [], embedding := none, valid := false }
    edges := dropEdges i g.edges }

def findOrCreateConcept (g : Graph V W) (key : Key) : ℤ × Graph V W :=
  let idx := findConceptIdx g key
  if idx ≥ 0 then (idx, g)
  else if g.numConcepts ≥ g.maxConcepts then
    let lru := lruIdx g
    if lru ≥ 0 then (lru, clearSlot g lru.toNat) else (-1, g)
  else (toInt g.numConcepts, { g with numConcepts := g.numConcepts + 1 })

/-- `sneppx_semantic_store`. -/
def store (g : Graph V W) (key : Key) (embedding : V) : ℤ × Graph V W :=
  let (idx, g) := findOrCreateConcept g key
  if idx < 0 then (-1, g)
  else
    let counter := (g.accessCounter + 1) % 2 ^ 64
    (0, { g with
      concepts := Function.update g.concepts idx.toNat
        ⟨key.take (maxKeyLen - 1), some embedding, counter, true⟩
      accessCounter := counter })

/-- A concept that `retrieve` looks at. -/
def scored (g : Graph V W) (i : ℕ) : Bool := (g.concepts i).valid && (g.concepts i).embedding.isSome

/-- One turn of the loop of `sneppx_semantic_retrieve` over the concepts. -/
def access (g : Graph V W) (i : ℕ) : Graph V W :=
  if scored g i then
    let counter := (g.accessCounter + 1) % 2 ^ 64
    { g with
      concepts := Function.update g.concepts i { g.concepts i with lastAccess := counter }
      accessCounter := counter }
  else g

/-- `sneppx_semantic_retrieve`: the number of results, and the accesses. -/
def retrieve (g : Graph V W) (topK : ℕ) : ℤ × Graph V W :=
  if g.numConcepts = 0 then (0, g)
  else
    let validCount := (List.range g.numConcepts).countP (scored g)
    let g := (List.range g.numConcepts).foldl access g
    if validCount = 0 then (0, g) else (toInt (min topK validCount), g)

/-- `sneppx_semantic_relate`. -/
def relate (g : Graph V W) (fromKey toKey : Key) (weight : W) : ℤ × Graph V W :=
  let fi := findConceptIdx g fromKey
  let ti := findConceptIdx g toKey
  if fi < 0 ∨ ti < 0 then (-1, g)
  else if g.edges.length ≥ g.maxEdges then (-1, g)
  else (0, { g with edges := g.edges ++ [⟨fi.toNat, ti.toNat, weight, true⟩] })

/-- `sneppx_semantic_forget`. -/
def forget (g : Graph V W) (key : Key) : ℤ × Graph V W :=
  let idx := findConceptIdx g key
  if idx < 0 then (-1, g) else (0, clearSlot g idx.toNat)

/-- The operations. -/
inductive Op (V W : Type) where
  | store (key : Key) (embedding : V)
  | retrieve (topK : ℕ)
  | relate (fromKey toKey : Key) (weight : W)
  | forget (key : Key)

def apply (g : Graph V W) : Op V W → ℤ × Graph V W
  | .store key embedding => store g key embedding
  | .retrieve topK => retrieve g topK
  | .relate fromKey toKey weight => relate g fromKey toKey weight
  | .forget key => forget g key

def step (g : Graph V W) (op : Op V W) : Graph V W := (apply g op).2

/-- What the operations of a run return. -/
def results (g : Graph V W) : List (Op V W) → List ℤ
  | [] => []
  | op :: ops => (apply g op).1 :: results (step g op) ops

/-! ## What the graph is for -/

/-- The keys with their values, the least recently used first, and the edges. -/
structure Memory (V W : Type) where
  entries : List (Key × Option V)
  edges : List (Key × Key × W)

namespace Memory

def empty : Memory V W := ⟨[], []⟩

def keys (m : Memory V W) : List Key := m.entries.map Prod.fst

/-- A key is gone, and its edges with it. -/
def without (m : Memory V W) (key : Key) : Memory V W where
  entries := m.entries.filter fun e => e.1 ≠ key
  edges := m.edges.filter fun e => e.1 ≠ key ∧ e.2.1 ≠ key

/-- A key is the last one used. -/
def insert (m : Memory V W) (key : Key) (embedding : V) : Memory V W :=
  { m with entries := m.entries ++ [(key, some embedding)] }

end Memory

/-- The steps of the bounded map: a new key always finds its place, and drives out the least recently
used one only when the map is full; an edge between two keys finds its place unless there are
`maxEdges`. -/
inductive SpecStep (maxConcepts maxEdges : ℕ) :
    Memory V W → Op V W → ℤ → Memory V W → Prop where
  | update {m : Memory V W} {key : Key} {v : V} : key ∈ m.keys →
      SpecStep maxConcepts maxEdges m (.store key v) 0
        { m with entries := m.entries.filter (fun e => e.1 ≠ key) ++ [(key, some v)] }
  | insert {m : Memory V W} {key : Key} {v : V} : key ∉ m.keys →
      m.entries.length < maxConcepts →
      SpecStep maxConcepts maxEdges m (.store key v) 0 (m.insert key v)
  | evict {m : Memory V W} {key : Key} {v : V} {oldest : Key × Option V}
      {rest : List (Key × Option V)} : key ∉ m.keys → m.entries.length = maxConcepts →
      m.entries = oldest :: rest →
      SpecStep maxConcepts maxEdges m (.store key v) 0 ((m.without oldest.1).insert key v)
  | retrieve {m : Memory V W} {topK : ℕ} {entries : List (Key × Option V)} :
      entries.Perm m.entries →
      SpecStep maxConcepts maxEdges m (.retrieve topK) (min topK m.entries.length)
        { m with entries := entries }
  | relate {m : Memory V W} {a b : Key} {w : W} : a ∈ m.keys → b ∈ m.keys →
      m.edges.length < maxEdges →
      SpecStep maxConcepts maxEdges m (.relate a b w) 0 { m with edges := m.edges ++ [(a, b, w)] }
  | relateFails {m : Memory V W} {a b : Key} {w : W} :
      (a ∉ m.keys ∨ b ∉ m.keys ∨ maxEdges ≤ m.edges.length) →
      SpecStep maxConcepts maxEdges m (.relate a b w) (-1) m
  | forget {m : Memory V W} {key : Key} : key ∈ m.keys →
      SpecStep maxConcepts maxEdges m (.forget key) 0 (m.without key)
  | forgetFails {m : Memory V W} {key : Key} : key ∉ m.keys →
      SpecStep maxConcepts maxEdges m (.forget key) (-1) m

/-- A run of the bounded map, with what its steps return. -/
inductive SpecRun (maxConcepts maxEdges : ℕ) :
    Memory V W → List (Op V W) → List ℤ → Memory V W → Prop where
  | nil {m : Memory V W} : SpecRun maxConcepts maxEdges m [] [] m
  | cons {m m' m'' : Memory V W} {op : Op V W} {ops : List (Op V W)} {r : ℤ} {rs : List ℤ} :
      SpecStep maxConcepts maxEdges m op r m' → SpecRun maxConcepts maxEdges m' ops rs m'' →
      SpecRun maxConcepts maxEdges m (op :: ops) (r :: rs) m''

/-! ## Representation -/

/-- The graph represents the map; `order` lists the slots of its keys. -/
structure Rep (g : Graph V W) (m : Memory V W) (order : List ℕ) : Prop where
  inOrder : InOrder (fun i => (g.concepts i).valid = true) (fun i => (g.concepts i).lastAccess) order
  lt_num : ∀ i, (g.concepts i).valid = true → i < g.numConcepts
  num_le : g.numConcepts ≤ g.maxConcepts
  access_le : ∀ i, (g.concepts i).valid = true → (g.concepts i).lastAccess ≤ g.accessCounter
  embedding : ∀ i, (g.concepts i).valid = true → (g.concepts i).embedding.isSome = true
  key_inj : ∀ i j, (g.concepts i).valid = true → (g.concepts j).valid = true →
    (g.concepts i).key = (g.concepts j).key → i = j
  entries : m.entries = order.map fun i => ((g.concepts i).key, (g.concepts i).embedding)
  edge_live : ∀ e ∈ g.edges, e.valid = true →
    (g.concepts e.fromIdx).valid = true ∧ (g.concepts e.toIdx).valid = true
  edges : m.edges = (g.edges.filter (·.valid)).map fun e =>
    ((g.concepts e.fromIdx).key, (g.concepts e.toIdx).key, e.weight)

/-- The steps that the code takes as it should: keys are short enough to be stored in full; a new key
finds a slot that was never used, or all slots are live and there are two of them; a new edge finds a
place that was never used, or all edges are valid; and the counter does not wrap. -/
def Meets (g : Graph V W) : Op V W → Prop
  | .store key _ => key.length < maxKeyLen ∧ g.accessCounter + 1 < 2 ^ 64 ∧
      ((∃ i, (g.concepts i).valid = true ∧ (g.concepts i).key = key) ∨
        g.numConcepts < g.maxConcepts ∨
        2 ≤ g.maxConcepts ∧ ∀ i < g.numConcepts, (g.concepts i).valid = true)
  | .retrieve _ => g.accessCounter + (List.range g.numConcepts).countP (scored g) < 2 ^ 64
  | .relate _ _ _ => g.edges.length < g.maxEdges ∨ ∀ e ∈ g.edges, e.valid = true
  | .forget _ => True

section Lookup

variable {g : Graph V W} {m : Memory V W} {order : List ℕ} {i : ℕ} {key : Key}

theorem toInt_of_lt (h : i < 2 ^ 31) : toInt i = i := by
  unfold toInt
  rw [Int.bmod_def]
  omega

theorem Rep.mem_keys (h : Rep g m order) :
    key ∈ m.keys ↔ ∃ i, (g.concepts i).valid = true ∧ (g.concepts i).key = key := by
  simp only [Memory.keys, h.entries, List.map_map, List.mem_map, h.inOrder.mem]
  rfl

theorem Rep.lt_small (h : Rep g m order) (hmax : g.maxConcepts < 2 ^ 31)
    (hi : (g.concepts i).valid = true) : i < 2 ^ 31 := by
  have := h.lt_num i hi
  have := h.num_le
  omega

theorem Rep.findConceptIdx (h : Rep g m order) (hmax : g.maxConcepts < 2 ^ 31) (key : Key) :
    (findConceptIdx g key = -1 ∧ key ∉ m.keys) ∨
      ∃ i : ℕ, findConceptIdx g key = i ∧ (g.concepts i).valid = true ∧ (g.concepts i).key = key := by
  unfold SemanticMemory.findConceptIdx
  cases hfind : (List.range g.numConcepts).find? fun i =>
      (g.concepts i).valid && (g.concepts i).key == key with
  | none =>
    refine .inl ⟨rfl, fun hmem => ?_⟩
    obtain ⟨i, hi, hkey⟩ := h.mem_keys.mp hmem
    have hnot := List.find?_eq_none.mp hfind i (List.mem_range.mpr (h.lt_num i hi))
    exact hnot (by simp [hi, hkey])
  | some i =>
    have hi := List.find?_some hfind
    simp only [Bool.and_eq_true, beq_iff_eq] at hi
    exact .inr ⟨i, toInt_of_lt (h.lt_small hmax hi.1), hi⟩

/-- Once the least recently used concept is found, the search keeps it. -/
theorem foldl_lruStep_of_le (l : List ℕ) (x : ℤ) {t : ℕ}
    (h : ∀ j ∈ l, (g.concepts j).valid = true → t ≤ (g.concepts j).lastAccess) :
    l.foldl (lruStep g) (t, x) = (t, x) := by
  induction l with
  | nil => rfl
  | cons j l ih =>
    have hj : lruStep g (t, x) j = (t, x) := by
      refine if_neg fun hlt => ?_
      have := h j List.mem_cons_self hlt.1
      exact absurd hlt.2 (by simpa using this)
    rw [List.foldl_cons, hj]
    exact ih fun k hk => h k (List.mem_cons_of_mem j hk)

/-- The search finds the concept with the least access, if it is below the bound. -/
theorem foldl_lruStep (l : List ℕ) (acc : ℕ × ℤ) (hi : i ∈ l) (hvalid : (g.concepts i).valid = true)
    (hacc : (g.concepts i).lastAccess < acc.1)
    (hmin : ∀ j, (g.concepts j).valid = true → j ≠ i →
      (g.concepts i).lastAccess < (g.concepts j).lastAccess) :
    (l.foldl (lruStep g) acc).2 = toInt i := by
  induction l generalizing acc with
  | nil => cases hi
  | cons j l ih =>
    rw [List.foldl_cons]
    by_cases hj : j = i
    · subst hj
      have hstep : lruStep g acc j = ((g.concepts j).lastAccess, toInt j) := if_pos ⟨hvalid, hacc⟩
      rw [hstep, foldl_lruStep_of_le]
      intro k _ hk
      by_cases hkj : k = j
      · rw [hkj]
      · exact (hmin k hk hkj).le
    · have hi' : i ∈ l := (List.mem_cons.mp hi).resolve_left fun h => hj h.symm
      refine ih _ hi' ?_
      unfold lruStep
      split_ifs with hlt
      · exact hmin j hlt.1 hj
      · exact hacc

/-- When all slots are live and there are two, the search finds the head of the order. -/
theorem Rep.lruIdx (h : Rep g m order) (hmax : g.maxConcepts < 2 ^ 31)
    (hfull : ∀ i < g.numConcepts, (g.concepts i).valid = true) (htwo : 2 ≤ g.numConcepts) :
    ∃ i rest, order = i :: rest ∧ (g.concepts i).valid = true ∧ lruIdx g = i ∧
      order.length = g.numConcepts := by
  have hperm : order.Perm (List.range g.numConcepts) := by
    rw [List.perm_ext_iff_of_nodup h.inOrder.nodup List.nodup_range]
    intro i
    rw [h.inOrder.mem, List.mem_range]
    exact ⟨h.lt_num i, hfull i⟩
  have hlen : order.length = g.numConcepts := by rw [hperm.length_eq, List.length_range]
  match order, hlen with
  | [], hlen => simp at hlen; omega
  | [_], hlen => simp at hlen; omega
  | i :: j :: rest, hlen =>
    obtain ⟨hvalid, hmin⟩ := h.inOrder.head_lt
    have hj : (g.concepts j).valid = true := (h.inOrder.mem j).mp (by simp)
    have hne : j ≠ i := by
      rintro rfl
      exact absurd h.inOrder.nodup (by simp)
    refine ⟨i, j :: rest, rfl, hvalid, ?_, hlen⟩
    rw [SemanticMemory.lruIdx, foldl_lruStep _ _ (List.mem_range.mpr (h.lt_num i hvalid)) hvalid
      ((hmin j hj hne).trans_le (h.access_le j hj)) hmin, toInt_of_lt (h.lt_small hmax hvalid)]

end Lookup

/-! ## Changes of one slot -/

section Slots

variable {g : Graph V W} {m : Memory V W} {order : List ℕ} {i : ℕ} {key : Key}

def Holds (g : Graph V W) (i : ℕ) (key : Key) : Prop :=
  ∀ j, (g.concepts j).valid = true → ((g.concepts j).key = key ↔ j = i)

theorem Rep.holds (h : Rep g m order) (hi : (g.concepts i).valid = true) :
    Holds g i (g.concepts i).key := fun j hj =>
  ⟨h.key_inj j i hj hi, fun heq => by rw [heq]⟩

theorem Rep.holds_of_not_mem (h : Rep g m order) (hi : (g.concepts i).valid = false)
    (hkey : key ∉ m.keys) : Holds g i key := by
  intro j hj
  refine iff_of_false (fun heq => hkey (h.mem_keys.mpr ⟨j, hj, heq⟩)) ?_
  rintro rfl
  simp [hi] at hj

theorem Rep.filter_entries (h : Rep g m order) (hi : Holds g i key) :
    m.entries.filter (fun e => e.1 ≠ key) =
      (order.erase i).map fun j => ((g.concepts j).key, (g.concepts j).embedding) := by
  rw [h.entries, List.filter_map, h.inOrder.nodup.erase_eq_filter]
  congr 1
  apply List.filter_congr
  intro j hj
  have hiff := hi j ((h.inOrder.mem j).mp hj)
  by_cases hji : j = i
  · simp [hji, hji ▸ hiff.mpr hji]
  · simp [hji, hiff]

theorem map_entries_update (l : List ℕ) (hl : i ∉ l) (c : Concept V) :
    l.map (fun j => ((Function.update g.concepts i c j).key,
        (Function.update g.concepts i c j).embedding)) =
      l.map fun j => ((g.concepts j).key, (g.concepts j).embedding) := by
  apply List.map_congr_left
  intro j hj
  have hne : j ≠ i := by
    rintro rfl
    exact hl hj
  rw [Function.update_of_ne hne]

theorem dropEdges_filter (i : ℕ) (edges : List (Edge W)) :
    (dropEdges i edges).filter (·.valid) =
      (edges.filter (·.valid)).filter fun e => e.fromIdx ≠ i ∧ e.toIdx ≠ i := by
  induction edges with
  | nil => rfl
  | cons e edges ih =>
    rw [dropEdges] at ih ⊢
    rw [List.map_cons, List.filter_cons, ih, List.filter_cons]
    by_cases hv : e.valid = true
    · by_cases hat : e.fromIdx = i ∨ e.toIdx = i
      · have hout : ¬ (e.fromIdx ≠ i ∧ e.toIdx ≠ i) := by tauto
        simp [hv, hat, hout]
      · have hin : e.fromIdx ≠ i ∧ e.toIdx ≠ i := not_or.mp hat
        simp [hv, hin]
    · simp [hv]

theorem mem_dropEdges {e : Edge W} {edges : List (Edge W)} (he : e ∈ dropEdges i edges)
    (hv : e.valid = true) : e ∈ edges ∧ e.fromIdx ≠ i ∧ e.toIdx ≠ i := by
  have hmem : e ∈ (dropEdges i edges).filter (·.valid) := List.mem_filter.mpr ⟨he, hv⟩
  rw [dropEdges_filter, List.mem_filter, List.mem_filter] at hmem
  exact ⟨hmem.1.1, by simpa using hmem.2⟩

/-- Giving up a slot takes its key out of the map. -/
theorem Rep.clearSlot (h : Rep g m order) (hi : (g.concepts i).valid = true) :
    Rep (clearSlot g i) (m.without (g.concepts i).key) (order.erase i) := by
  have hvalid : ∀ j, ((SemanticMemory.clearSlot g i).concepts j).valid = true ↔
      j ≠ i ∧ (g.concepts j).valid = true := by
    intro j
    simp only [SemanticMemory.clearSlot]
    by_cases hj : j = i
    · simp [hj]
    · simp [hj]
  have hsame : ∀ j ≠ i, (SemanticMemory.clearSlot g i).concepts j = g.concepts j := fun j hj =>
    Function.update_of_ne hj ..
  constructor
  case inOrder =>
    exact h.inOrder.remove hvalid fun j hj => by rw [hsame j hj]
  case lt_num => exact fun j hj => h.lt_num j ((hvalid j).mp hj).2
  case num_le => exact h.num_le
  case access_le =>
    intro j hj
    obtain ⟨hne, hj⟩ := (hvalid j).mp hj
    rw [hsame j hne]
    exact h.access_le j hj
  case embedding =>
    intro j hj
    obtain ⟨hne, hj⟩ := (hvalid j).mp hj
    rw [hsame j hne]
    exact h.embedding j hj
  case key_inj =>
    intro j k hj hk hkey
    obtain ⟨hj, hj'⟩ := (hvalid j).mp hj
    obtain ⟨hk, hk'⟩ := (hvalid k).mp hk
    rw [hsame j hj, hsame k hk] at hkey
    exact h.key_inj j k hj' hk' hkey
  case entries =>
    exact (h.filter_entries (h.holds hi)).trans
      (map_entries_update _ h.inOrder.nodup.not_mem_erase _).symm
  case edge_live =>
    intro e he hv
    obtain ⟨he, hfrom, hto⟩ := mem_dropEdges he hv
    exact ⟨(hvalid _).mpr ⟨hfrom, (h.edge_live e he hv).1⟩,
      (hvalid _).mpr ⟨hto, (h.edge_live e he hv).2⟩⟩
  case edges =>
    have hat : ∀ e ∈ g.edges.filter (·.valid),
        ((g.concepts e.fromIdx).key ≠ (g.concepts i).key ∧
          (g.concepts e.toIdx).key ≠ (g.concepts i).key) ↔ (e.fromIdx ≠ i ∧ e.toIdx ≠ i) := by
      intro e he
      obtain ⟨he, hv⟩ := List.mem_filter.mp he
      obtain ⟨hfrom, hto⟩ := h.edge_live e he hv
      exact and_congr (not_congr (h.holds hi _ hfrom)) (not_congr (h.holds hi _ hto))
    change m.edges.filter _ = ((dropEdges i g.edges).filter (·.valid)).map _
    rw [h.edges, List.filter_map, dropEdges_filter]
    have hfilter : (g.edges.filter (·.valid)).filter ((fun e : Key × Key × W =>
          decide (e.1 ≠ (g.concepts i).key ∧ e.2.1 ≠ (g.concepts i).key)) ∘
        fun e => ((g.concepts e.fromIdx).key, (g.concepts e.toIdx).key, e.weight)) =
        (g.edges.filter (·.valid)).filter fun e => e.fromIdx ≠ i ∧ e.toIdx ≠ i := by
      apply List.filter_congr
      intro e he
      exact decide_eq_decide.mpr (hat e he)
    rw [hfilter]
    apply List.map_congr_left
    intro e he
    have hends := (List.mem_filter.mp he).2
    simp only [decide_eq_true_eq] at hends
    rw [hsame _ hends.1, hsame _ hends.2]

/-- A slot is written with the time of the next access. -/
def useSlot (g : Graph V W) (i : ℕ) (key : Key) (embedding : Option V) : Graph V W :=
  { g with
    concepts := Function.update g.concepts i ⟨key, embedding, g.accessCounter + 1, true⟩
    accessCounter := g.accessCounter + 1 }

/-- Writing the slot that holds a key makes it the last one used. -/
theorem Rep.useSlot (h : Rep g m order) (hi : Holds g i key) (hlt : i < g.numConcepts)
    {embedding : Option V} (hv : embedding.isSome = true) :
    Rep (useSlot g i key embedding)
      { m with entries := m.entries.filter (fun e => e.1 ≠ key) ++ [(key, embedding)] }
      (order.erase i ++ [i]) := by
  set c : Concept V := ⟨key, embedding, g.accessCounter + 1, true⟩ with hc
  have hvalid : ∀ j, (Function.update g.concepts i c j).valid = true ↔
      j = i ∨ (g.concepts j).valid = true := by
    intro j
    by_cases hj : j = i <;> simp [hj, hc]
  have hkeys : ∀ j, (g.concepts j).valid = true →
      (Function.update g.concepts i c j).key = (g.concepts j).key := by
    intro j hj
    by_cases hji : j = i
    · subst hji
      rw [Function.update_self]
      exact ((hi j hj).mpr rfl).symm
    · rw [Function.update_of_ne hji]
  constructor
  case inOrder =>
    refine h.inOrder.touch (i := i) hvalid (fun j hj => ?_) fun j hj _ => ?_
    · exact congrArg Concept.lastAccess (Function.update_of_ne hj ..)
    · dsimp only [SemanticMemory.useSlot]
      rw [Function.update_self]
      exact Nat.lt_succ_of_le (h.access_le j hj)
  case lt_num =>
    intro j hj
    obtain rfl | hj := (hvalid j).mp hj
    · exact hlt
    · exact h.lt_num j hj
  case num_le => exact h.num_le
  case access_le =>
    intro j hj
    dsimp only [SemanticMemory.useSlot]
    by_cases hji : j = i
    · rw [hji, Function.update_self]
    · rw [Function.update_of_ne hji]
      exact Nat.le_succ_of_le (h.access_le j (((hvalid j).mp hj).resolve_left hji))
  case embedding =>
    intro j hj
    dsimp only [SemanticMemory.useSlot]
    by_cases hji : j = i
    · rw [hji, Function.update_self]
      exact hv
    · rw [Function.update_of_ne hji]
      exact h.embedding j (((hvalid j).mp hj).resolve_left hji)
  case key_inj =>
    -- A slot other than `i` that is live has another key.
    have hother : ∀ j, (Function.update g.concepts i c j).valid = true →
        ((Function.update g.concepts i c j).key = key ↔ j = i) := by
      intro j hj
      by_cases hji : j = i
      · simp [hji, hc]
      · have hj' := ((hvalid j).mp hj).resolve_left hji
        rw [hkeys j hj']
        exact hi j hj'
    intro j k hj hk heq
    by_cases hji : j = i
    · have hkey : (Function.update g.concepts i c j).key = key := (hother j hj).mpr hji
      exact hji.trans ((hother k hk).mp (heq.symm.trans hkey)).symm
    · have hki : k ≠ i := fun hki => hji ((hother j hj).mp (heq.trans ((hother k hk).mpr hki)))
      have hj' := ((hvalid j).mp hj).resolve_left hji
      have hk' := ((hvalid k).mp hk).resolve_left hki
      exact h.key_inj j k hj' hk' ((hkeys j hj').symm.trans (heq.trans (hkeys k hk')))
  case entries =>
    dsimp only [SemanticMemory.useSlot]
    rw [h.filter_entries hi, List.map_append, map_entries_update _ h.inOrder.nodup.not_mem_erase]
    simp
  case edge_live =>
    intro e he hv
    exact ⟨(hvalid _).mpr (.inr (h.edge_live e he hv).1),
      (hvalid _).mpr (.inr (h.edge_live e he hv).2)⟩
  case edges =>
    change m.edges = _
    rw [h.edges]
    apply List.map_congr_left
    intro e he
    obtain ⟨he, hv⟩ := List.mem_filter.mp he
    obtain ⟨hfrom, hto⟩ := h.edge_live e he hv
    dsimp only [SemanticMemory.useSlot]
    rw [hkeys _ hfrom, hkeys _ hto]

/-- A key that is not in the map is put at its end. -/
theorem Rep.useSlot_new (h : Rep g m order) (hi : (g.concepts i).valid = false)
    (hlt : i < g.numConcepts) (hkey : key ∉ m.keys) (v : V) :
    Rep (SemanticMemory.useSlot g i key (some v)) (m.insert key v) (order.erase i ++ [i]) := by
  have huse : Rep (SemanticMemory.useSlot g i key (some v))
      { m with entries := m.entries.filter (fun e => e.1 ≠ key) ++ [(key, some v)] }
      (order.erase i ++ [i]) :=
    h.useSlot (h.holds_of_not_mem hi hkey) hlt rfl
  have hall : m.entries.filter (fun e => e.1 ≠ key) = m.entries := by
    rw [List.filter_eq_self]
    intro e he
    have : e.1 ≠ key := fun heq => hkey (List.mem_map.mpr ⟨e, he, heq⟩)
    simpa using this
  rwa [hall] at huse

end Slots

/-! ## Steps -/

section Steps

variable {g : Graph V W} {m : Memory V W} {order : List ℕ}

theorem Rep.length_le (h : Rep g m order) : m.entries.length ≤ g.numConcepts := by
  rw [h.entries, List.length_map, ← List.length_range (n := g.numConcepts)]
  refine (List.subperm_of_subset h.inOrder.nodup fun i hi => ?_).length_le
  exact List.mem_range.mpr (h.lt_num i ((h.inOrder.mem i).mp hi))

theorem store_eq (g : Graph V W) {key : Key} (v : V) {i : ℕ} {g' : Graph V W}
    (hfind : findOrCreateConcept g key = ((i : ℤ), g')) (hlen : key.length < maxKeyLen)
    (hcounter : g'.accessCounter + 1 < 2 ^ 64) :
    store g key v = (0, useSlot g' i key (some v)) := by
  have htake : key.take (maxKeyLen - 1) = key := List.take_of_length_le (by omega)
  simp only [store, hfind, htake, Nat.mod_eq_of_lt hcounter, Int.toNat_natCast]
  rw [if_neg (by omega)]
  rfl

/-- A store takes a step of the bounded map. -/
theorem Rep.store (h : Rep g m order) (hmax : g.maxConcepts < 2 ^ 31) {key : Key} {v : V}
    (hmeets : Meets g (.store key v)) :
    ∃ m' order', SpecStep g.maxConcepts g.maxEdges m (.store key v) (store g key v).1 m' ∧
      Rep (SemanticMemory.store g key v).2 m' order' := by
  obtain ⟨hlen, hcounter, hroom⟩ := hmeets
  rcases h.findConceptIdx hmax key with ⟨hnone, hkey⟩ | ⟨i, hfind, hi, rfl⟩
  · by_cases hnum : g.numConcepts < g.maxConcepts
    · -- A slot that was never used.
      have hcreate : findOrCreateConcept g key =
          ((g.numConcepts : ℤ), { g with numConcepts := g.numConcepts + 1 }) := by
        simp only [findOrCreateConcept, hnone]
        rw [if_neg (by omega), if_neg (by omega), toInt_of_lt (by omega)]
      have hgrow : Rep { g with numConcepts := g.numConcepts + 1 } m order :=
        { h with
          lt_num := fun i hi => Nat.lt_succ_of_lt (h.lt_num i hi)
          num_le := hnum }
      have hinvalid : (g.concepts g.numConcepts).valid = false := by
        by_contra hne
        exact absurd (h.lt_num _ (by simpa using hne)) (Nat.lt_irrefl _)
      have hlength : m.entries.length < g.maxConcepts := h.length_le.trans_lt hnum
      rw [store_eq g v hcreate hlen hcounter]
      exact ⟨_, _, .insert hkey hlength,
        hgrow.useSlot_new hinvalid (Nat.lt_succ_self _) hkey v⟩
    · -- All slots are live, and the head of the order is driven out.
      obtain ⟨i, hi, heq⟩ | hnum' | ⟨htwo, hfull⟩ := hroom
      · exact absurd (h.mem_keys.mpr ⟨i, hi, heq⟩) hkey
      · exact absurd hnum' hnum
      · have hnumeq : g.numConcepts = g.maxConcepts := by
          have := h.num_le
          omega
        obtain ⟨i, rest, horder, hi, hlru, hlength⟩ := h.lruIdx hmax hfull (by omega)
        have hcreate : findOrCreateConcept g key = ((i : ℤ), SemanticMemory.clearSlot g i) := by
          simp only [findOrCreateConcept, hnone, hlru]
          rw [if_neg (by omega), if_pos (by omega), if_pos (by omega), Int.toNat_natCast]
        have hclear := h.clearSlot hi
        have hkey' : key ∉ (m.without (g.concepts i).key).keys := fun hmem => by
          obtain ⟨e, he, heq⟩ := List.mem_map.mp hmem
          exact hkey (List.mem_map.mpr ⟨e, List.mem_of_mem_filter he, heq⟩)
        rw [store_eq g v hcreate hlen hcounter]
        have hentries : m.entries = ((g.concepts i).key, (g.concepts i).embedding) ::
            rest.map fun j => ((g.concepts j).key, (g.concepts j).embedding) := by
          rw [h.entries, horder, List.map_cons]
        have hmfull : m.entries.length = g.maxConcepts := by
          rw [h.entries, List.length_map, hlength, hnumeq]
        have hcleared : ((SemanticMemory.clearSlot g i).concepts i).valid = false := by
          simp [SemanticMemory.clearSlot]
        exact ⟨_, _, .evict hkey hmfull hentries,
          hclear.useSlot_new hcleared (h.lt_num i hi) hkey' v⟩
  · -- The slot of the key.
    have hcreate : findOrCreateConcept g (g.concepts i).key = ((i : ℤ), g) := by
      simp only [findOrCreateConcept, hfind]
      rw [if_pos (by omega)]
    rw [store_eq g v hcreate hlen hcounter]
    exact ⟨_, _, .update (h.mem_keys.mpr ⟨i, hi, rfl⟩),
      h.useSlot (h.holds hi) (h.lt_num i hi) rfl⟩

/-- A retrieval uses all concepts. -/
theorem Rep.foldl_access (h : Rep g m order) (l : List ℕ)
    (hcounter : g.accessCounter + l.countP (scored g) < 2 ^ 64) :
    ∃ entries order', entries.Perm m.entries ∧
      Rep (l.foldl access g) { m with entries := entries } order' := by
  induction l generalizing g m order with
  | nil => exact ⟨_, _, .refl _, h⟩
  | cons i l ih =>
    rw [List.foldl_cons]
    rw [List.countP_cons] at hcounter
    by_cases hi : scored g i = true
    · have hvalid : (g.concepts i).valid = true := by
        rw [scored, Bool.and_eq_true] at hi
        exact hi.1
      rw [if_pos hi] at hcounter
      have haccess : access g i = SemanticMemory.useSlot g i (g.concepts i).key (g.concepts i).embedding := by
        simp only [access, if_pos hi]
        rw [Nat.mod_eq_of_lt (by omega)]
        simp [SemanticMemory.useSlot, hvalid]
      have huse := h.useSlot (h.holds hvalid) (h.lt_num i hvalid) (h.embedding i hvalid)
      have hscored : ∀ j, scored (access g i) j = scored g j := by
        intro j
        rw [haccess]
        by_cases hj : j = i
        · rw [hj, hi]
          simp [scored, SemanticMemory.useSlot, h.embedding i hvalid]
        · simp [scored, SemanticMemory.useSlot, hj]
      rw [haccess] at hscored ⊢
      obtain ⟨entries, order', hperm, hrep⟩ := ih huse (by
        rw [List.countP_congr fun j _ => by rw [hscored j]]
        dsimp only [SemanticMemory.useSlot]
        omega)
      refine ⟨entries, order', hperm.trans ?_, hrep⟩
      -- Moving one entry to the end is a permutation.
      have hmem : i ∈ order := (h.inOrder.mem i).mpr hvalid
      rw [h.filter_entries (h.holds hvalid), h.entries]
      have hmoved : (order.erase i ++ [i]).Perm order :=
        (List.perm_append_singleton i _).trans (List.perm_cons_erase hmem).symm
      simpa using hmoved.map fun j => ((g.concepts j).key, (g.concepts j).embedding)
    · rw [if_neg hi, Nat.add_zero] at hcounter
      have haccess : access g i = g := if_neg hi
      rw [haccess]
      exact ih h hcounter

theorem Rep.countP_scored (h : Rep g m order) :
    (List.range g.numConcepts).countP (scored g) = m.entries.length := by
  rw [List.countP_eq_length_filter, h.entries, List.length_map]
  refine List.Perm.length_eq ?_
  rw [List.perm_ext_iff_of_nodup (List.nodup_range.filter _) h.inOrder.nodup]
  intro i
  rw [List.mem_filter, List.mem_range, h.inOrder.mem, scored, Bool.and_eq_true]
  exact ⟨fun hi => hi.2.1, fun hi => ⟨h.lt_num i hi, hi, h.embedding i hi⟩⟩

/-- A retrieval takes a step of the bounded map. -/
theorem Rep.retrieve (h : Rep g m order) (hmax : g.maxConcepts < 2 ^ 31) {topK : ℕ}
    (hmeets : Meets g (.retrieve topK)) :
    ∃ m' order', SpecStep g.maxConcepts g.maxEdges m (.retrieve topK) (retrieve g topK).1 m' ∧
      Rep (SemanticMemory.retrieve g topK).2 m' order' := by
  have hle := h.length_le
  have hnum := h.num_le
  obtain ⟨entries, order', hperm, hrep⟩ := h.foldl_access (List.range g.numConcepts) hmeets
  have hstep : SpecStep g.maxConcepts g.maxEdges m (.retrieve topK) (min topK m.entries.length)
      { m with entries := entries } := .retrieve hperm
  simp only [SemanticMemory.retrieve, h.countP_scored]
  split_ifs with hzero hempty
  · have hkeep : SpecStep g.maxConcepts g.maxEdges m (.retrieve topK) (min topK m.entries.length) m :=
      .retrieve (.refl _)
    refine ⟨m, order, ?_, h⟩
    rwa [show min (topK : ℤ) m.entries.length = 0 by omega] at hkeep
  · refine ⟨_, order', ?_, hrep⟩
    rwa [show min (topK : ℤ) m.entries.length = 0 by omega] at hstep
  · refine ⟨_, order', ?_, hrep⟩
    rw [toInt_of_lt (by omega), Nat.cast_min]
    exact hstep

theorem Rep.relate (h : Rep g m order) (hmax : g.maxConcepts < 2 ^ 31) {a b : Key} {w : W}
    (hmeets : Meets g (.relate a b w : Op V W)) :
    ∃ m' order', SpecStep g.maxConcepts g.maxEdges m (.relate a b w) (relate g a b w).1 m' ∧
      Rep (SemanticMemory.relate g a b w).2 m' order' := by
  simp only [SemanticMemory.relate]
  rcases h.findConceptIdx hmax a with ⟨hnone, ha⟩ | ⟨i, hi, hivalid, rfl⟩
  · rw [if_pos (.inl (by omega))]
    exact ⟨m, order, .relateFails (.inl ha), h⟩
  rcases h.findConceptIdx hmax b with ⟨hnone, hb⟩ | ⟨j, hj, hjvalid, rfl⟩
  · rw [if_pos (.inr (by omega))]
    exact ⟨m, order, .relateFails (.inr (.inl hb)), h⟩
  rw [if_neg (by omega)]
  split_ifs with hfull
  · have hall : ∀ e ∈ g.edges, e.valid = true := hmeets.resolve_left (by omega)
    refine ⟨m, order, .relateFails (.inr (.inr ?_)), h⟩
    rw [h.edges, List.length_map, List.filter_eq_self.mpr hall]
    exact hfull
  · have hlength : m.edges.length < g.maxEdges := by
      have := List.length_filter_le (·.valid) g.edges
      rw [h.edges, List.length_map]
      omega
    refine ⟨_, order, .relate (h.mem_keys.mpr ⟨i, hivalid, rfl⟩) (h.mem_keys.mpr ⟨j, hjvalid, rfl⟩)
      hlength, ?_⟩
    rw [hi, hj, Int.toNat_natCast, Int.toNat_natCast]
    exact
      { h with
        edge_live := by
          intro e he hv
          rw [List.mem_append, List.mem_singleton] at he
          obtain he | rfl := he
          · exact h.edge_live e he hv
          · exact ⟨hivalid, hjvalid⟩
        edges := by simp [h.edges, List.filter_append] }

theorem Rep.forget (h : Rep g m order) (hmax : g.maxConcepts < 2 ^ 31) (key : Key) :
    ∃ m' order', SpecStep g.maxConcepts g.maxEdges m (.forget key) (forget g key).1 m' ∧
      Rep (SemanticMemory.forget g key).2 m' order' := by
  simp only [SemanticMemory.forget]
  rcases h.findConceptIdx hmax key with ⟨hnone, hkey⟩ | ⟨i, hi, hvalid, rfl⟩
  · rw [if_pos (by omega)]
    exact ⟨m, order, .forgetFails hkey, h⟩
  · rw [if_neg (by omega), hi, Int.toNat_natCast]
    exact ⟨_, _, .forget (h.mem_keys.mpr ⟨i, hvalid, rfl⟩), h.clearSlot hvalid⟩

/-- Every step that meets the condition is a step of the bounded map. -/
theorem Rep.apply (h : Rep g m order) (hmax : g.maxConcepts < 2 ^ 31) (op : Op V W)
    (hmeets : Meets g op) :
    ∃ m' order', SpecStep g.maxConcepts g.maxEdges m op (apply g op).1 m' ∧
      Rep (step g op) m' order' := by
  cases op with
  | store key v => exact h.store hmax hmeets
  | retrieve topK => exact h.retrieve hmax hmeets
  | relate a b w => exact h.relate hmax hmeets
  | forget key => exact h.forget hmax key

/-- The operations leave the bounds as they are. -/
theorem step_max (g : Graph V W) (op : Op V W) :
    (step g op).maxConcepts = g.maxConcepts ∧ (step g op).maxEdges = g.maxEdges := by
  have haccess : ∀ (l : List ℕ) (g : Graph V W),
      (l.foldl access g).maxConcepts = g.maxConcepts ∧ (l.foldl access g).maxEdges = g.maxEdges := by
    intro l
    induction l with
    | nil => exact fun _ => ⟨rfl, rfl⟩
    | cons i l ih =>
      intro g
      refine (ih (access g i)).imp (fun h => h.trans ?_) fun h => h.trans ?_
      all_goals
        unfold access
        split_ifs <;> rfl
  cases op with
  | store key v =>
    simp only [step, apply, store, findOrCreateConcept, clearSlot]
    split_ifs <;> exact ⟨rfl, rfl⟩
  | retrieve topK =>
    simp only [step, apply, retrieve]
    split_ifs
    · exact ⟨rfl, rfl⟩
    · exact haccess _ g
    · exact haccess _ g
  | relate a b w =>
    simp only [step, apply, relate]
    split_ifs <;> exact ⟨rfl, rfl⟩
  | forget key =>
    simp only [step, apply, forget, clearSlot]
    split_ifs <;> exact ⟨rfl, rfl⟩

end Steps

/-! ## Runs -/

section Runs

variable {g : Graph V W} {m : Memory V W} {order : List ℕ}

theorem Rep.run (h : Rep g m order) (hmax : g.maxConcepts < 2 ^ 31) (ops : List (Op V W))
    (hguard : Guarded step Meets g ops) :
    ∃ m' order', SpecRun g.maxConcepts g.maxEdges m ops (results g ops) m' ∧
      Rep (ops.foldl step g) m' order' := by
  induction ops generalizing g m order with
  | nil => exact ⟨m, order, .nil, h⟩
  | cons op ops ih =>
    obtain ⟨m', order', hstep, hrep⟩ := h.apply hmax op hguard.1
    obtain ⟨hmaxC, hmaxE⟩ := step_max g op
    obtain ⟨m'', order'', hrun, hrep'⟩ := ih hrep (by rwa [hmaxC]) hguard.2
    rw [hmaxC, hmaxE] at hrun
    exact ⟨m'', order'', .cons hstep hrun, hrep'⟩

theorem foldl_step_max (ops : List (Op V W)) (g : Graph V W) :
    (ops.foldl step g).maxConcepts = g.maxConcepts := by
  induction ops generalizing g with
  | nil => rfl
  | cons op ops ih => exact (ih (step g op)).trans (step_max g op).1

theorem rep_create (maxConcepts maxEdges : ℕ) :
    Rep (create maxConcepts maxEdges : Graph V W) .empty [] where
  inOrder := .nil fun _ => Bool.false_ne_true
  lt_num := fun _ hi => absurd hi Bool.false_ne_true
  num_le := Nat.zero_le _
  access_le := fun _ hi => absurd hi Bool.false_ne_true
  embedding := fun _ hi => absurd hi Bool.false_ne_true
  key_inj := fun _ _ hi => absurd hi Bool.false_ne_true
  entries := rfl
  edge_live := fun _ he => absurd he List.not_mem_nil
  edges := rfl

end Runs

/-- **The graph is a bounded map with eviction of the least recently used key,** in every run whose
steps meet the condition: the run returns what the map returns, the graph represents the map, its keys
are distinct, and its edges join live concepts. -/
theorem run_refines (maxConcepts maxEdges : ℕ) (ops : List (Op V W))
    (hmax : (create maxConcepts maxEdges : Graph V W).maxConcepts < 2 ^ 31)
    (hguard : Guarded step Meets (create maxConcepts maxEdges) ops) :
    let g₀ : Graph V W := create maxConcepts maxEdges
    let g := ops.foldl step g₀
    ∃ m order, SpecRun g₀.maxConcepts g₀.maxEdges .empty ops (results g₀ ops) m ∧ Rep g m order ∧
      m.entries.length ≤ g₀.maxConcepts ∧
      (∀ i j, (g.concepts i).valid = true → (g.concepts j).valid = true →
        (g.concepts i).key = (g.concepts j).key → i = j) ∧
      ∀ e ∈ g.edges, e.valid = true →
        (g.concepts e.fromIdx).valid = true ∧ (g.concepts e.toIdx).valid = true := by
  intro g₀ g
  obtain ⟨m, order, hrun, hrep⟩ := (rep_create maxConcepts maxEdges).run hmax ops hguard
  have hle : m.entries.length ≤ g₀.maxConcepts :=
    (hrep.length_le.trans hrep.num_le).trans_eq (foldl_step_max ops g₀)
  exact ⟨m, order, hrun, hrep, hle, hrep.key_inj, hrep.edge_live⟩

/-- Two concepts with an edge, in a graph with room for two: a third key drives out the first. -/
def smallRun : List (Op ℕ ℕ) :=
  [.store [1] 10, .store [2] 20, .relate [1] [2] 5, .retrieve 1, .store [3] 30]

theorem run_refines_smallRun :
    results (create 2 1) smallRun = [0, 0, 0, 1, 0] ∧
      ∃ m order, SpecRun 2 1 .empty smallRun (results (create 2 1) smallRun) m ∧
        Rep (smallRun.foldl step (create 2 1)) m order := by
  have hguard : Guarded step Meets (create 2 1) smallRun := by
    refine ⟨⟨by decide, by decide, .inr (.inl (by decide))⟩,
      ⟨by decide, by decide, .inr (.inl (by decide))⟩, .inl (by decide +kernel), ?_,
      ⟨by decide, by decide +kernel, .inr (.inr ⟨by decide +kernel, by decide +kernel⟩)⟩, trivial⟩
    unfold Meets
    decide +kernel
  obtain ⟨m, order, hrun, hrep, -⟩ := run_refines 2 1 smallRun (by decide) hguard
  exact ⟨by decide +kernel, m, order, hrun, hrep⟩

/-- Two concepts that are forgotten again. -/
def forgetRun : List (Op ℕ ℕ) :=
  [.store [1] 10, .store [2] 20, .forget [1], .forget [2], .store [3] 30]

/-- A graph with room for two concepts takes no new one after two were forgotten, and the run is not
one of the bounded map. -/
theorem forgetRun_fails :
    results (create 2 1) forgetRun = [0, 0, 0, 0, -1] ∧
      ¬ ∃ m, SpecRun 2 1 .empty forgetRun (results (create 2 1) forgetRun) m := by
  have hresults : results (create 2 1) forgetRun = [0, 0, 0, 0, -1] := by decide +kernel
  refine ⟨hresults, ?_⟩
  rintro ⟨m, hrun⟩
  rw [hresults] at hrun
  obtain _ | ⟨-, hrun⟩ := hrun
  obtain _ | ⟨-, hrun⟩ := hrun
  obtain _ | ⟨-, hrun⟩ := hrun
  obtain _ | ⟨-, hrun⟩ := hrun
  obtain _ | ⟨hstep, -⟩ := hrun
  cases hstep

end SneppxAlg.SemanticMemory
