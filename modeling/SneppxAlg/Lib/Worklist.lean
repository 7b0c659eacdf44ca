import Mathlib.Data.Finset.Card
import Mathlib.Logic.Function.Basic
import Mathlib.Logic.Relation

/-!
# Search with a stack of bounded size

Nodes are marked when they are found and put on a stack; the node on top is taken off, listed and
expanded. The stack holds at most `cap` nodes, and a node that finds no room is marked and lost. The
successors of a node may be undefined, and then so is the search.

A node is marked once, so that in a finite set of at most `cap` nodes the stack never overflows
(`Inv.add`). A search that ends has listed exactly the nodes that can be reached, each once
(`search_spec`), and it ends if the successors of all those are defined (`search_total`).
-/

namespace Lib.Worklist

variable {α : Type*} [DecidableEq α]

/-- The marks, the stack with its top first, and the list so far. -/
structure State (α : Type*) where
  visited : α → Bool
  stack : List α
  out : List α

/-- A node that has been found. -/
def State.add (cap : ℕ) (s : State α) (y : α) : State α :=
  if s.visited y then s
  else
    { s with
      visited := Function.update s.visited y true
      stack := if s.stack.length < cap then y :: s.stack else s.stack }

/-- The rounds, until the stack is empty. -/
def loop (succ : α → Option (List α)) (cap : ℕ) : ℕ → State α → Option (List α)
  | fuel, s =>
    match s.stack with
    | [] => some s.out
    | x :: rest =>
      match fuel with
      | 0 => none
      | fuel + 1 => (succ x).bind fun ys =>
          loop succ cap fuel (ys.foldl (State.add cap) { s with stack := rest, out := s.out ++ [x] })

def start (root : α) : State α :=
  { visited := Function.update (fun _ => false) root true, stack := [root], out := [] }

def search (succ : α → Option (List α)) (cap fuel : ℕ) (root : α) : Option (List α) :=
  loop succ cap fuel (start root)

def Edge (succ : α → Option (List α)) (x y : α) : Prop := ∃ ys, succ x = some ys ∧ y ∈ ys

def Reach (succ : α → Option (List α)) (root x : α) : Prop :=
  Relation.ReflTransGen (Edge succ) root x

section

variable {succ : α → Option (List α)} {cap : ℕ} {nodes : Finset α} {root : α} {s : State α}

/-- What the marks say. -/
structure Marks (succ : α → Option (List α)) (nodes : Finset α) (root : α) (s : State α) : Prop where
  visited_iff : ∀ y, s.visited y = true ↔ y ∈ s.stack ++ s.out
  nodup : (s.stack ++ s.out).Nodup
  nodes : ∀ y ∈ s.stack ++ s.out, y ∈ nodes
  reached : ∀ y ∈ s.stack ++ s.out, Reach succ root y
  root : root ∈ s.stack ++ s.out

/-- The listed nodes have been expanded. -/
structure Inv (succ : α → Option (List α)) (nodes : Finset α) (root : α) (s : State α) : Prop
    extends Marks succ nodes root s where
  expanded : ∀ x ∈ s.out, ∃ ys, succ x = some ys ∧ ∀ y ∈ ys, s.visited y = true

theorem Marks.room (h : Marks succ nodes root s) (hcap : nodes.card ≤ cap) {y : α} (hy : y ∈ nodes)
    (hnew : s.visited y = false) : s.stack.length < cap := by
  have hnot : y ∉ s.stack ++ s.out := fun hmem => by
    rw [(h.visited_iff y).mpr hmem] at hnew
    simp at hnew
  have hnodup : (y :: (s.stack ++ s.out)).Nodup := List.nodup_cons.mpr ⟨hnot, h.nodup⟩
  have hsub : (y :: (s.stack ++ s.out)).toFinset ⊆ nodes := by
    intro z hz
    rcases List.mem_cons.mp (List.mem_toFinset.mp hz) with rfl | hz
    · exact hy
    · exact h.nodes z hz
  have hle := Finset.card_le_card hsub
  rw [List.toFinset_card_of_nodup hnodup, List.length_cons, List.length_append] at hle
  omega

theorem Marks.add (h : Marks succ nodes root s) (hcap : nodes.card ≤ cap) {y : α} (hy : y ∈ nodes)
    (hreach : Reach succ root y) : Marks succ nodes root (s.add cap y) := by
  cases hnew : s.visited y with
  | true => simpa [State.add, hnew] using h
  | false =>
    have hroom := h.room hcap hy hnew
    have hnot : y ∉ s.stack ++ s.out := fun hmem => by
      rw [(h.visited_iff y).mpr hmem] at hnew
      simp at hnew
    have heq : s.add cap y =
        { s with visited := Function.update s.visited y true, stack := y :: s.stack } := by
      simp [State.add, hnew, hroom]
    rw [heq]
    refine ⟨fun z => ?_, List.nodup_cons.mpr ⟨hnot, h.nodup⟩, ?_, ?_, List.mem_cons_of_mem _ h.root⟩
    · by_cases hz : z = y
      · simp [hz]
      · simpa [hz] using h.visited_iff z
    · intro z hz
      rcases List.mem_cons.mp hz with rfl | hz
      · exact hy
      · exact h.nodes z hz
    · intro z hz
      rcases List.mem_cons.mp hz with rfl | hz
      · exact hreach
      · exact h.reached z hz

theorem out_add (cap : ℕ) (s : State α) (y : α) : (s.add cap y).out = s.out := by
  unfold State.add
  split_ifs <;> rfl

theorem visited_add (cap : ℕ) (s : State α) (y z : α) :
    (s.add cap y).visited z = (decide (z = y) || s.visited z) := by
  cases hnew : s.visited y with
  | true => by_cases hz : z = y <;> simp [State.add, hnew, hz]
  | false => by_cases hz : z = y <;> simp [State.add, hnew, hz]

theorem out_foldl_add (cap : ℕ) (ys : List α) (s : State α) :
    (ys.foldl (State.add cap) s).out = s.out := by
  induction ys generalizing s with
  | nil => rfl
  | cons y ys ih => exact (ih _).trans (out_add cap s y)

theorem visited_foldl_add (cap : ℕ) (ys : List α) (s : State α) (z : α) :
    (ys.foldl (State.add cap) s).visited z = true ↔ z ∈ ys ∨ s.visited z = true := by
  induction ys generalizing s with
  | nil => simp
  | cons y ys ih =>
    rw [List.foldl_cons, ih, visited_add]
    simp only [Bool.or_eq_true, decide_eq_true_eq, List.mem_cons]
    tauto

theorem Marks.foldl_add (hcap : nodes.card ≤ cap) {ys : List α} (h : Marks succ nodes root s)
    (hys : ∀ y ∈ ys, y ∈ nodes ∧ Reach succ root y) :
    Marks succ nodes root (ys.foldl (State.add cap) s) := by
  induction ys generalizing s with
  | nil => exact h
  | cons y ys ih =>
    obtain ⟨hnode, hreach⟩ := hys y List.mem_cons_self
    exact ih (h.add hcap hnode hreach) fun z hz => hys z (List.mem_cons_of_mem _ hz)

theorem start_inv (hroot : root ∈ nodes) : Inv succ nodes root (start root) := by
  refine ⟨⟨fun y => ?_, by simp [start], ?_, ?_, by simp [start]⟩, by simp [start]⟩
  · by_cases hy : y = root <;> simp [start, hy]
  · intro y hy
    obtain rfl : y = root := by simpa [start] using hy
    exact hroot
  · intro y hy
    obtain rfl : y = root := by simpa [start] using hy
    exact .refl

omit [DecidableEq α] in
theorem Inv.listed (h : Inv succ nodes root s) (hstack : s.stack = []) :
    s.out.Nodup ∧ (∀ x, x ∈ s.out ↔ Reach succ root x) ∧ ∀ x ∈ s.out, ∃ ys, succ x = some ys := by
  have hout : s.stack ++ s.out = s.out := by rw [hstack, List.nil_append]
  refine ⟨hout ▸ h.nodup, fun x => ⟨fun hx => h.reached x (hout.symm ▸ hx), fun hx => ?_⟩, ?_⟩
  · induction hx with
    | refl => exact hout ▸ h.root
    | tail _ hedge ih =>
      obtain ⟨ys, hsucc, hy⟩ := hedge
      obtain ⟨zs, hzs, hall⟩ := h.expanded _ ih
      rw [hsucc] at hzs
      cases hzs
      exact hout ▸ (h.visited_iff _).mp (hall _ hy)
  · intro x hx
    obtain ⟨ys, hsucc, -⟩ := h.expanded x hx
    exact ⟨ys, hsucc⟩

section Run

variable (hcap : nodes.card ≤ cap) (hnodes : ∀ x ∈ nodes, ∀ ys, succ x = some ys → ∀ y ∈ ys, y ∈ nodes)

include hcap hnodes

theorem Inv.round (h : Inv succ nodes root s) {x : α} {rest ys : List α} (hstack : s.stack = x :: rest)
    (hsucc : succ x = some ys) :
    Inv succ nodes root
      (ys.foldl (State.add cap) { s with stack := rest, out := s.out ++ [x] }) := by
  have hx : x ∈ s.stack ++ s.out := by simp [hstack]
  have hperm : (s.stack ++ s.out).Perm (rest ++ (s.out ++ [x])) := by
    rw [hstack, ← List.append_assoc]
    exact (List.perm_append_singleton x _).symm
  have hmarks : Marks succ nodes root { s with stack := rest, out := s.out ++ [x] } :=
    { visited_iff := fun y => (h.visited_iff y).trans hperm.mem_iff
      nodup := hperm.nodup_iff.mp h.nodup
      nodes := fun y hy => h.nodes y (hperm.mem_iff.mpr hy)
      reached := fun y hy => h.reached y (hperm.mem_iff.mpr hy)
      root := hperm.mem_iff.mp h.root }
  refine ⟨hmarks.foldl_add hcap fun y hy => ?_, fun z hz => ?_⟩
  · exact ⟨hnodes x (h.nodes x hx) ys hsucc y hy, (h.reached x hx).tail ⟨ys, hsucc, hy⟩⟩
  · rw [out_foldl_add] at hz
    rcases List.mem_append.mp hz with hz | hz
    · obtain ⟨zs, hzs, hall⟩ := h.expanded z hz
      exact ⟨zs, hzs, fun y hy => (visited_foldl_add _ _ _ _).mpr (Or.inr (hall y hy))⟩
    · obtain rfl : z = x := by simpa using hz
      exact ⟨ys, hsucc, fun y hy => (visited_foldl_add _ _ _ _).mpr (Or.inl hy)⟩

theorem loop_spec {fuel : ℕ} {out : List α} (h : Inv succ nodes root s) (hloop : loop succ cap fuel s = some out) :
    out.Nodup ∧ (∀ x, x ∈ out ↔ Reach succ root x) ∧ ∀ x ∈ out, ∃ ys, succ x = some ys := by
  induction fuel generalizing s with
  | zero =>
    unfold loop at hloop
    split at hloop
    · next hstack => exact Option.some.inj hloop ▸ h.listed hstack
    · simp at hloop
  | succ fuel ih =>
    unfold loop at hloop
    split at hloop
    · next hstack => exact Option.some.inj hloop ▸ h.listed hstack
    · next x rest hstack =>
      obtain ⟨ys, hsucc, hrest⟩ := Option.bind_eq_some_iff.mp hloop
      exact ih (Inv.round hcap hnodes h hstack hsucc) hrest

/-- A round lists a node, so that there are at most as many rounds as nodes. -/
theorem loop_total (hdefined : ∀ x, Reach succ root x → ∃ ys, succ x = some ys) {fuel : ℕ}
    (h : Inv succ nodes root s) (hfuel : nodes.card ≤ fuel + s.out.length) :
    ∃ out, loop succ cap fuel s = some out := by
  induction fuel generalizing s with
  | zero =>
    have hempty : s.stack = [] := by
      have hsub : (s.stack ++ s.out).toFinset ⊆ nodes := fun z hz =>
        h.nodes z (List.mem_toFinset.mp hz)
      have hle := Finset.card_le_card hsub
      rw [List.toFinset_card_of_nodup h.nodup, List.length_append] at hle
      exact List.length_eq_zero_iff.mp (by omega)
    exact ⟨s.out, by unfold loop; rw [hempty]⟩
  | succ fuel ih =>
    cases hstack : s.stack with
    | nil => exact ⟨s.out, by unfold loop; rw [hstack]⟩
    | cons x rest =>
      obtain ⟨ys, hsucc⟩ := hdefined x (h.reached x (by simp [hstack]))
      obtain ⟨out, hout⟩ := ih (Inv.round hcap hnodes h hstack hsucc) (by
        rw [out_foldl_add, List.length_append, List.length_singleton]
        omega)
      refine ⟨out, ?_⟩
      unfold loop
      rw [hstack]
      exact Option.bind_eq_some_iff.mpr ⟨ys, hsucc, hout⟩

theorem search_spec (hroot : root ∈ nodes) {fuel : ℕ} {out : List α} (h : search succ cap fuel root = some out) :
    out.Nodup ∧ (∀ x, x ∈ out ↔ Reach succ root x) ∧ ∀ x ∈ out, ∃ ys, succ x = some ys :=
  loop_spec hcap hnodes (start_inv hroot) h

theorem search_total (hroot : root ∈ nodes) (hdefined : ∀ x, Reach succ root x → ∃ ys, succ x = some ys)
    {fuel : ℕ} (hfuel : nodes.card ≤ fuel) : ∃ out, search succ cap fuel root = some out :=
  loop_total hcap hnodes hdefined (start_inv hroot) (by omega)

end Run

end

end Lib.Worklist
