import Mathlib
import SneppxAlg.Internal.RbTree

/-!
# `rbtree.c`: runs

A run of insertions and deletions computes the map of its bindings (`note`), unless it reads through `NULL`.
`delete_fixup` takes `x->parent` also where `x` is `NULL`, so a deletion does that exactly if it unlinks a black node
without children that is not the only node (`Stuck`): all other deletions unlink a red node, or a node whose only child
is red, and need no repair.
-/

namespace SneppxAlg.RedBlack

open Lib.TreeZipper Lib.TreeZipper.BinTree

variable {V : Type*}

/-! ## Unlinking -/

theorem pathColors_false {p : List (Frame (Node V))} {red : Bool} (h : PathColors p red) : PathColors p false := by
  cases p with
  | nil => rfl
  | cons f p => exact ⟨h.1, fun hred => ⟨rfl, (h.2.1 hred).2⟩, h.2.2⟩

/-- Only the colours of the labels count. -/
theorem pathHeight_relabel {q p : List (Frame (Node V))} {s : Side} {a b : Node V} {o : BinTree (Node V)} {n : ℕ}
    (hcolor : a.color = b.color) (h : PathHeight (q ++ ⟨s, a, o⟩ :: p) n) : PathHeight (q ++ ⟨s, b, o⟩ :: p) n := by
  induction q generalizing n with
  | nil =>
    obtain ⟨ho, hp⟩ := h
    exact ⟨ho, by simpa only [hcolor] using hp⟩
  | cons f q ih => exact ⟨h.1, ih h.2⟩

theorem pathColors_relabel {q p : List (Frame (Node V))} {s : Side} {a b : Node V} {o : BinTree (Node V)} {red : Bool}
    (hcolor : a.color = b.color) (h : PathColors (q ++ ⟨s, a, o⟩ :: p) red) :
    PathColors (q ++ ⟨s, b, o⟩ :: p) red := by
  induction q generalizing red with
  | nil =>
    obtain ⟨ho, hred, hp⟩ := h
    exact ⟨ho, by simpa only [hcolor] using hred, by simpa only [hcolor] using hp⟩
  | cons f q ih => exact ⟨h.1, h.2.1, ih h.2.2⟩

theorem treeMinimum_spec (l : BinTree (Node V)) (n : Node V) (r : BinTree (Node V)) (p : List (Frame (Node V))) :
    plug (treeMinimum l n r p).2.2 (.node .nil (treeMinimum l n r p).1 (treeMinimum l n r p).2.1) =
        plug p (.node l n r) ∧
      before (treeMinimum l n r p).2.2 = before p := by
  induction l generalizing n r p with
  | nil => exact ⟨rfl, rfl⟩
  | node ll ln lr ihl _ =>
    obtain ⟨hplug, hbefore⟩ := ihl ln lr (⟨.left, n, r⟩ :: p)
    rw [treeMinimum]
    exact ⟨hplug, hbefore.trans (List.append_nil _)⟩

/-- What is left of a tree from which a node of the colour `c` is unlinked, with `x` in its place. -/
structure Unlinked (root : BinTree (Node V)) (key : UInt64) (c : Color) (x : BinTree (Node V))
    (p : List (Frame (Node V))) : Prop where
  height : BlackHeight x 0
  path_height : PathHeight p c.rank
  colors : NoRedRed x
  child_black : c = .red → isRed x = false
  path_colors : PathColors p (c = .red)
  split : ∃ a v b, bindings root = a ++ (key, v) :: b ∧ bindings (plug p x) = a ++ b

/-- The parts of a node with at most one child. -/
theorem unlinked_of_plug {root x : BinTree (Node V)} {y : Node V} {p : List (Frame (Node V))}
    (hheight : ∃ n, BlackHeight root n) (hcolors : NoRedRed root ∧ isRed root = false)
    (hroot : plug p (.node .nil y x) = root ∨ plug p (.node x y .nil) = root) :
    BlackHeight x 0 ∧ PathHeight p y.color.rank ∧ NoRedRed x ∧ (y.color = .red → isRed x = false) ∧
      PathColors p (y.color = .red) := by
  rcases hroot with rfl | rfl
  · obtain ⟨_, ⟨m, rfl, hm, hx⟩, hp⟩ := blackHeight_plug.mp hheight
    obtain ⟨⟨-, hxc, hy⟩, hpc⟩ := colors_plug.mp hcolors
    obtain rfl : m = 0 := hm
    rw [Nat.zero_add] at hp
    exact ⟨hx, hp, hxc, fun hred => (hy hred).2, hpc⟩
  · obtain ⟨_, ⟨m, rfl, hx, hm⟩, hp⟩ := blackHeight_plug.mp hheight
    obtain ⟨⟨hxc, -, hy⟩, hpc⟩ := colors_plug.mp hcolors
    obtain rfl : m = 0 := hm
    rw [Nat.zero_add] at hp
    exact ⟨hx, hp, hxc, fun hred => (hy hred).1, hpc⟩

/-- `delete_fixup` never repairs a valid tree by a step of its loop. -/
theorem Unlinked.fixup {root x : BinTree (Node V)} {key : UInt64} {c : Color} {p : List (Frame (Node V))}
    (h : Unlinked root key c x p) :
    (c = .black ∧ x = .nil ∧ p ≠ [] ∧ (if c = .black then deleteFixup x p else some (plug p x)) = none) ∨
      ¬(c = .black ∧ x = .nil ∧ p ≠ []) ∧ ∃ root',
        (if c = .black then deleteFixup x p else some (plug p x)) = some root' ∧
          (NoRedRed root' ∧ isRed root' = false) ∧ (∃ n, BlackHeight root' n) ∧
          bindings root' = bindings (plug p x) := by
  cases c with
  | red =>
    have hx : isRed x = false := h.child_black rfl
    have hne : ¬(Color.red = .black ∧ x = .nil ∧ p ≠ []) := by
      rintro ⟨⟨⟩, -, -⟩
    refine .inr ⟨hne, plug p x, rfl, ?_, blackHeight_plug.mpr ⟨0, h.height, h.path_height⟩, rfl⟩
    rw [colors_plug, hx]
    exact ⟨h.colors, pathColors_false h.path_colors⟩
  | black =>
    rw [if_pos rfl]
    cases x with
    | nil =>
      cases p with
      | nil =>
        exact .inr ⟨fun hne => hne.2.2 rfl, .nil, by rw [deleteFixup]; rfl, ⟨trivial, rfl⟩, ⟨0, rfl⟩, rfl⟩
      | cons f p => exact .inl ⟨rfl, rfl, List.cons_ne_nil f p, by rw [deleteFixup]⟩
    | node l n r =>
      have hred : n.color = .red := by
        obtain ⟨m, hm, -, -⟩ := h.height
        cases hcolor : n.color with
        | red => rfl
        | black =>
          rw [hcolor, Color.rank] at hm
          omega
      have hpainted : BlackHeight (paint .black (.node l n r)) 1 :=
        blackHeight_paint_red h.height (by simpa [isRed] using hred)
      have hne : ¬(Color.black = .black ∧ BinTree.node l n r = .nil ∧ p ≠ []) := by
        rintro ⟨-, ⟨⟩, -⟩
      refine .inr ⟨hne, plug p (paint .black (.node l n r)), ?_, ?_,
        blackHeight_plug.mpr ⟨1, hpainted, h.path_height⟩, bindings_plug_congr p (bindings_paint _)⟩
      · cases p with
        | nil => rw [deleteFixup]; rfl
        | cons f p => rw [deleteFixup, dif_pos hred]
      · rw [colors_plug, isRed_paint]
        exact ⟨noRedRed_paint h.colors, pathColors_false h.path_colors⟩

/-! ## The map -/

/-- The keys of the bindings increase. -/
def Sorted (l : List (UInt64 × V)) : Prop := l.Pairwise fun a b => a.1 < b.1

/-- The bindings are those of the map. -/
def Lists (l : List (UInt64 × V)) (m : UInt64 → Option V) : Prop := ∀ k v, (k, v) ∈ l ↔ m k = some v

/-- A tree as calls find and leave it. -/
structure Valid (t : RbTree V) : Prop where
  colors : NoRedRed t.root ∧ isRed t.root = false
  height : ∃ n, BlackHeight t.root n
  sorted : Sorted (bindings t.root)
  size : t.size = (bindings t.root).length

theorem valid_create : Valid (create : RbTree V) :=
  { colors := ⟨trivial, rfl⟩, height := ⟨0, rfl⟩, sorted := List.Pairwise.nil, size := rfl }

variable {t t' : RbTree V} {m : UInt64 → Option V} {key : UInt64} {a b : List (UInt64 × V)} {v : V}

theorem sorted_cons_iff : Sorted (a ++ (key, v) :: b) ↔
    Sorted (a ++ b) ∧ (∀ e ∈ a, e.1 < key) ∧ ∀ e ∈ b, key < e.1 := by
  simp only [Sorted, List.pairwise_append, List.pairwise_cons, List.forall_mem_cons]
  constructor
  · rintro ⟨ha, ⟨hkb, hb⟩, hab⟩
    exact ⟨⟨ha, hb, fun x hx => (hab x hx).2⟩, fun x hx => (hab x hx).1, hkb⟩
  · rintro ⟨⟨ha, hb, hab⟩, hak, hkb⟩
    exact ⟨ha, ⟨hkb, hb⟩, fun x hx => ⟨hak x hx, hab x hx⟩⟩

theorem notMem_of_sorted (ha : ∀ e ∈ a, e.1 < key) (hb : ∀ e ∈ b, key < e.1) {k : UInt64} {w : V}
    (h : (k, w) ∈ a ++ b) : k ≠ key := by
  rintro rfl
  rcases List.mem_append.mp h with hmem | hmem
  · exact UInt64.lt_irrefl k (ha _ hmem)
  · exact UInt64.lt_irrefl k (hb _ hmem)

theorem Lists.insert (h : Lists (a ++ b) m) (ha : ∀ e ∈ a, e.1 < key) (hb : ∀ e ∈ b, key < e.1) :
    Lists (a ++ (key, v) :: b) (Function.update m key (some v)) := by
  intro k w
  have hmem : (k, w) ∈ a ++ (key, v) :: b ↔ (k, w) = (key, v) ∨ (k, w) ∈ a ++ b := by
    simp only [List.mem_append, List.mem_cons]
    tauto
  rw [hmem, h k w]
  by_cases hk : k = key
  · subst hk
    have hnone : m k ≠ some w := fun hsome => notMem_of_sorted ha hb ((h k w).mpr hsome) rfl
    simp [hnone, eq_comm]
  · simp [hk]

theorem Lists.erase (h : Lists (a ++ (key, v) :: b) m) (ha : ∀ e ∈ a, e.1 < key) (hb : ∀ e ∈ b, key < e.1) :
    Lists (a ++ b) (Function.update m key none) := by
  intro k w
  by_cases hk : k = key
  · subst hk
    have hnot : (k, w) ∉ a ++ b := fun hmem => notMem_of_sorted ha hb hmem rfl
    simp [hnot]
  · rw [Function.update_of_ne hk, ← h k w]
    simp [hk]

theorem Lists.eq_some (h : Lists (a ++ (key, v) :: b) m) : m key = some v := (h key v).mp (by simp)

theorem Lists.eq_none (h : Lists (a ++ b) m) (ha : ∀ e ∈ a, e.1 < key) (hb : ∀ e ∈ b, key < e.1) : m key = none := by
  cases hm : m key with
  | none => rfl
  | some w => exact absurd rfl (notMem_of_sorted ha hb ((h key w).mpr hm))

/-! ## Searching -/

theorem Valid.ordered (h : Valid t) : Ordered (fun n : Node V => n.key.toNat) t.root.toList := by
  have hsorted := h.sorted
  rw [Sorted, bindings, List.pairwise_map] at hsorted
  exact hsorted.imp fun hlt => UInt64.lt_iff_toNat_lt.mp hlt

theorem Valid.found (h : Valid t) (key : UInt64) :
    Found (fun n : Node V => n.key.toNat) key.toNat t.root [] (treeSearch t key).1 (treeSearch t key).2 :=
  descend_found h.ordered key.toNat []

theorem Valid.split_of_missing (h : Valid t) {p : List (Frame (Node V))} (hsearch : treeSearch t key = (.nil, p)) :
    plug p .nil = t.root ∧ (∀ e ∈ (before p).map Node.binding, e.1 < key) ∧
      ∀ e ∈ (after p).map Node.binding, key < e.1 := by
  obtain ⟨hplug, ⟨x, y, hx, hy, hxk, hyk⟩, -⟩ := h.found key
  rw [hsearch] at hplug hx hy
  simp only [before, after, List.nil_append, List.append_nil] at hx hy
  subst hx hy
  simp only [List.forall_mem_map]
  exact ⟨hplug, fun n hn => UInt64.lt_iff_toNat_lt.mpr (hxk n hn), fun n hn => UInt64.lt_iff_toNat_lt.mpr (hyk n hn)⟩

theorem Valid.bindings_of_missing (h : Valid t) {p : List (Frame (Node V))} (hsearch : treeSearch t key = (.nil, p)) :
    bindings t.root = (before p).map Node.binding ++ (after p).map Node.binding := by
  obtain ⟨hplug, -, -⟩ := h.split_of_missing hsearch
  rw [← hplug, bindings_plug]
  simp [bindings, toList]

theorem Valid.eq_none_of_missing (h : Valid t) (hm : Lists (bindings t.root) m) {p : List (Frame (Node V))}
    (hsearch : treeSearch t key = (.nil, p)) : m key = none := by
  obtain ⟨-, hbefore, hafter⟩ := h.split_of_missing hsearch
  exact (h.bindings_of_missing hsearch ▸ hm).eq_none hbefore hafter

theorem Valid.split_of_found (h : Valid t) {p : List (Frame (Node V))} {l r : BinTree (Node V)} {n : Node V}
    (hsearch : treeSearch t key = (.node l n r, p)) : plug p (.node l n r) = t.root ∧ n.key = key := by
  obtain ⟨hplug, -, hnode⟩ := h.found key
  rw [hsearch] at hplug hnode
  rcases hnode with hnil | ⟨l', n', r', heq, hkey⟩
  · nomatch hnil
  · obtain ⟨rfl, rfl, rfl⟩ := BinTree.node.inj heq
    exact ⟨hplug, UInt64.toNat_inj.mp hkey⟩

theorem bindings_plug_node (p : List (Frame (Node V))) (l r : BinTree (Node V)) (n : Node V) :
    bindings (plug p (.node l n r)) =
      ((before p).map Node.binding ++ bindings l) ++ n.binding ::
        (bindings r ++ (after p).map Node.binding) := by
  rw [bindings_plug]
  simp [bindings, toList]

theorem Valid.fixInv (h : Valid t) {p : List (Frame (Node V))} (hplug : plug p .nil = t.root) (key : UInt64) (v : V) :
    FixInv (.node .nil ⟨.red, key, v⟩ .nil) p := by
  have hheight := h.height
  have hcolors := h.colors
  rw [← hplug] at hheight hcolors
  obtain ⟨n, hn, hp⟩ := blackHeight_plug.mp hheight
  obtain rfl : n = 0 := hn
  exact
    { red := rfl
      colors := ⟨trivial, trivial, fun _ => ⟨rfl, rfl⟩⟩
      fixable := fixable_of_pathColors (colors_plug.mp hcolors).2
      height := ⟨0, ⟨0, rfl, rfl, rfl⟩, hp⟩ }

/-- What `unlink` finds. -/
theorem Valid.unlinked (h : Valid t) (key : UInt64) :
    (unlink t key = none ∧ ∃ p, treeSearch t key = (.nil, p)) ∨
      ∃ c x p, unlink t key = some (c, x, p) ∧ Unlinked t.root key c x p := by
  obtain ⟨s, p, hsearch⟩ : ∃ s p, treeSearch t key = (s, p) := ⟨_, _, rfl⟩
  cases s with
  | nil => exact .inl ⟨by rw [unlink, hsearch], p, hsearch⟩
  | node l z r =>
    right
    obtain ⟨hplug, rfl⟩ := h.split_of_found hsearch
    have hsplit := bindings_plug_node p l r z
    rw [hplug] at hsplit
    cases l with
    | nil =>
      obtain ⟨hheight, hpath, hcolors, hchild, hpathColors⟩ := unlinked_of_plug h.height h.colors (.inl hplug)
      refine ⟨z.color, r, p, by rw [unlink, hsearch], ⟨hheight, hpath, hcolors, hchild, hpathColors, ?_⟩⟩
      refine ⟨_, z.value, _, hsplit, ?_⟩
      rw [bindings_plug]
      simp [bindings, toList]
    | node ll lz lr =>
      cases r with
      | nil =>
        obtain ⟨hheight, hpath, hcolors, hchild, hpathColors⟩ := unlinked_of_plug h.height h.colors (.inr hplug)
        refine ⟨z.color, .node ll lz lr, p, by rw [unlink, hsearch],
          ⟨hheight, hpath, hcolors, hchild, hpathColors, ?_⟩⟩
        refine ⟨_, z.value, _, hsplit, ?_⟩
        rw [bindings_plug]
        simp [bindings, toList]
      | node rl rz rr =>
        obtain ⟨hmin, hbefore⟩ := treeMinimum_spec rl rz rr []
        obtain ⟨y, x, q, hyxq⟩ : ∃ y x q, treeMinimum rl rz rr [] = (y, x, q) := ⟨_, _, _, rfl⟩
        rw [hyxq] at hmin hbefore
        have hroot : plug (q ++ ⟨.right, z, .node ll lz lr⟩ :: p) (.node .nil y x) = t.root := by
          rw [plug_append, hmin]
          exact hplug
        obtain ⟨hheight, hpath, hcolors, hchild, hpathColors⟩ := unlinked_of_plug h.height h.colors (.inl hroot)
        have hcolor : z.color = (y.paint z.color).color := rfl
        refine ⟨y.color, x, q ++ ⟨.right, y.paint z.color, .node ll lz lr⟩ :: p, ?_,
          ⟨hheight, pathHeight_relabel hcolor hpath, hcolors, hchild, pathColors_relabel hcolor hpathColors, ?_⟩⟩
        · rw [unlink, hsearch]
          simp only [hyxq]
        refine ⟨_, z.value, _, hsplit, ?_⟩
        have hright : bindings (.node rl rz rr) = y.binding :: bindings x ++ (after q).map Node.binding := by
          have hlist := congrArg bindings hmin
          rw [bindings_plug_node, hbefore] at hlist
          exact hlist.symm.trans (by simp [before, bindings, toList])
        rw [hright, bindings_plug, before_append, after_append, hbefore]
        simp [before, after, bindings, Node.binding, Node.paint]

/-! ## Runs -/

/-- A call that changes the tree; `alloc` says whether there is memory for a node. -/
inductive Call (V : Type*) where
  | insert (key : UInt64) (value : V) (alloc : Bool)
  | delete (key : UInt64)

/-- A call; `none` stands for an access through `NULL`, and the `Bool` for the status 0. -/
def step (t : RbTree V) : Call V → Option (RbTree V × Bool)
  | .insert key value alloc => insert t key value alloc
  | .delete key => delete t key

/-- The statuses of calls in a row, with the tree that they leave. -/
def run (t : RbTree V) : List (Call V) → Option (RbTree V × List Bool)
  | [] => some (t, [])
  | c :: cs => (step t c).bind fun r => (run r.1 cs).map fun rs => (rs.1, r.2 :: rs.2)

/-- What a call does to the map, and its status. -/
def note (m : UInt64 → Option V) : Call V → (UInt64 → Option V) × Bool
  | .insert key value alloc =>
    if (m key).isSome || alloc then (Function.update m key (some value), true) else (m, false)
  | .delete key => (Function.update m key none, (m key).isSome)

/-- What calls in a row do to the map, and their statuses. -/
def noteAll (m : UInt64 → Option V) : List (Call V) → (UInt64 → Option V) × List Bool
  | [] => (m, [])
  | c :: cs => ((noteAll (note m c).1 cs).1, (note m c).2 :: (noteAll (note m c).1 cs).2)

/-- A deletion that unlinks a black node without children that is not the only node. -/
def Stuck (t : RbTree V) : Call V → Prop
  | .insert _ _ _ => False
  | .delete key => ∃ p, unlink t key = some (.black, .nil, p) ∧ p ≠ []

theorem insert_spec (h : Valid t) (hm : Lists (bindings t.root) m) (key : UInt64) (value : V) (alloc : Bool) :
    ∃ t', insert t key value alloc = some (t', (note m (.insert key value alloc)).2) ∧ Valid t' ∧
      Lists (bindings t'.root) (note m (.insert key value alloc)).1 := by
  obtain ⟨s, p, hsearch⟩ : ∃ s p, treeSearch t key = (s, p) := ⟨_, _, rfl⟩
  cases s with
  | nil =>
    obtain ⟨hplug, hbefore, hafter⟩ := h.split_of_missing hsearch
    have hroot := h.bindings_of_missing hsearch
    have hnone := h.eq_none_of_missing hm hsearch
    rw [hroot] at hm
    cases alloc with
    | false => exact ⟨t, by simp [insert, hsearch, note, hnone], h, by simpa [note, hnone, hroot] using hm⟩
    | true =>
      obtain ⟨root, hfix, hcolors, hheight, hbindings⟩ := insertFixup_spec (h.fixInv hplug key value)
      have hnew : bindings (paint .black root) =
          (before p).map Node.binding ++ (key, value) :: (after p).map Node.binding := by
        rw [bindings_paint, hbindings, bindings_plug]
        simp [bindings, toList, Node.binding]
      refine ⟨⟨paint .black root, t.size + 1⟩, by simp [insert, hsearch, note, hnone, hfix], ?_, ?_⟩
      · exact
          { colors := ⟨hcolors, isRed_paint root⟩
            height := hheight
            sorted := by
              rw [hnew, sorted_cons_iff]
              exact ⟨hroot ▸ h.sorted, hbefore, hafter⟩
            size := by
              rw [h.size, hroot, hnew]
              simp [Nat.add_assoc] }
      · rw [hnew]
        simpa [note, hnone] using hm.insert hbefore hafter
  | node l n r =>
    obtain ⟨hplug, rfl⟩ := h.split_of_found hsearch
    have hroot := bindings_plug_node p l r n
    have hnew := bindings_plug_node p l r { n with value := value }
    rw [hplug] at hroot
    have hsorted := h.sorted
    rw [hroot] at hm hsorted
    obtain ⟨hab, hbefore, hafter⟩ := sorted_cons_iff.mp hsorted
    have hsome : m n.key = some n.value := hm.eq_some
    refine ⟨⟨plug p (.node l { n with value := value } r), t.size⟩, by simp [insert, hsearch, note, hsome], ?_, ?_⟩
    · have hheight := h.height
      have hcolors := h.colors
      rw [← hplug] at hheight hcolors
      obtain ⟨hnode, hpath⟩ := colors_plug.mp hcolors
      obtain ⟨k, hk, hkp⟩ := blackHeight_plug.mp hheight
      exact
        { colors := colors_plug.mpr ⟨hnode, hpath⟩
          height := blackHeight_plug.mpr ⟨k, hk, hkp⟩
          sorted := by
            rw [hnew]
            exact sorted_cons_iff.mpr ⟨hab, hbefore, hafter⟩
          size := by
            rw [h.size, hroot, hnew]
            simp }
    · rw [hnew]
      have hlists := (hm.erase hbefore hafter).insert (v := value) hbefore hafter
      simpa [note, hsome, Node.binding] using hlists

theorem delete_spec (h : Valid t) (hm : Lists (bindings t.root) m) (key : UInt64) :
    (Stuck t (.delete key) ∧ delete t key = none) ∨ ¬Stuck t (.delete key) ∧ ∃ t',
      delete t key = some (t', (note m (.delete key)).2) ∧ Valid t' ∧
        Lists (bindings t'.root) (note m (.delete key)).1 := by
  rcases h.unlinked key with ⟨hunlink, p, hsearch⟩ | ⟨c, x, p, hunlink, hparts⟩
  · have hnone := h.eq_none_of_missing hm hsearch
    have hnot : ¬Stuck t (.delete key) := by
      rintro ⟨p, hsome, -⟩
      simp [hunlink] at hsome
    refine .inr ⟨hnot, t, by simp [delete, hunlink, note, hnone], h, ?_⟩
    rwa [note, Function.update_eq_self_iff.mpr hnone.symm]
  · obtain ⟨a, v, b, hroot, hleft⟩ := hparts.split
    have hsorted := h.sorted
    rw [hroot] at hm hsorted
    obtain ⟨hab, hbefore, hafter⟩ := sorted_cons_iff.mp hsorted
    rcases hparts.fixup with ⟨rfl, rfl, hp, hnone⟩ | ⟨hnot, root, hsome, hcolors, hheight, hbindings⟩
    · refine .inl ⟨⟨p, hunlink, hp⟩, ?_⟩
      rw [delete, hunlink]
      exact congrArg (Option.map fun root => ((⟨root, t.size - 1⟩ : RbTree V), true)) hnone
    · refine .inr ⟨?_, ⟨root, t.size - 1⟩, ?_, ?_, ?_⟩
      · rintro ⟨p', hp', hne⟩
        obtain ⟨rfl, rfl, rfl⟩ : c = .black ∧ x = .nil ∧ p = p' := by simpa [hunlink] using hp'
        exact hnot ⟨rfl, rfl, hne⟩
      · rw [delete, hunlink]
        simp only [hsome, Option.map_some, note, hm.eq_some, Option.isSome_some]
      · exact
          { colors := hcolors
            height := hheight
            sorted := by
              rw [hbindings, hleft]
              exact hab
            size := by
              rw [h.size, hroot, hbindings, hleft]
              simp }
      · rw [hbindings, hleft]
        exact hm.erase hbefore hafter

theorem step_spec (h : Valid t) (hm : Lists (bindings t.root) m) (c : Call V) :
    (Stuck t c ∧ step t c = none) ∨ ¬Stuck t c ∧ ∃ t', step t c = some (t', (note m c).2) ∧ Valid t' ∧
      Lists (bindings t'.root) (note m c).1 := by
  cases c with
  | insert key value alloc => exact .inr ⟨id, insert_spec h hm key value alloc⟩
  | delete key => exact delete_spec h hm key

/-- Some call of a run is stuck on the tree that those before it leave. -/
def Stops (t : RbTree V) (cs : List (Call V)) : Prop :=
  ∃ cs₁ c cs₂ t' statuses, cs = cs₁ ++ c :: cs₂ ∧ run t cs₁ = some (t', statuses) ∧ Stuck t' c

theorem stops_cons_iff {c : Call V} {cs : List (Call V)} {ok : Bool} (h : step t c = some (t', ok))
    (hc : ¬Stuck t c) : Stops t (c :: cs) ↔ Stops t' cs := by
  constructor
  · rintro ⟨cs₁, d, cs₂, t₁, statuses, heq, hrun, hd⟩
    cases cs₁ with
    | nil =>
      obtain ⟨rfl, rfl⟩ := List.cons.inj heq
      obtain ⟨rfl, -⟩ : t = t₁ ∧ _ := by simpa [run] using hrun
      exact absurd hd hc
    | cons c₁ cs₁ =>
      obtain ⟨rfl, rfl⟩ := List.cons.inj heq
      rw [run, h, Option.bind_some, Option.map_eq_some_iff] at hrun
      obtain ⟨⟨t₂, ss⟩, hrun, heq⟩ := hrun
      obtain ⟨rfl, -⟩ := Prod.mk.inj heq
      exact ⟨cs₁, d, cs₂, t₂, ss, rfl, hrun, hd⟩
  · rintro ⟨cs₁, d, cs₂, t₁, statuses, rfl, hrun, hd⟩
    refine ⟨c :: cs₁, d, cs₂, t₁, ok :: statuses, rfl, ?_, hd⟩
    rw [run, h, Option.bind_some, hrun, Option.map_some]

theorem run_cases (cs : List (Call V)) (h : Valid t) (hm : Lists (bindings t.root) m) :
    (Stops t cs ∧ run t cs = none) ∨ ¬Stops t cs ∧ ∃ t', run t cs = some (t', (noteAll m cs).2) ∧ Valid t' ∧
      Lists (bindings t'.root) (noteAll m cs).1 := by
  induction cs generalizing t m with
  | nil =>
    refine .inr ⟨?_, t, rfl, h, hm⟩
    rintro ⟨cs₁, c, cs₂, -, -, heq, -⟩
    simp at heq
  | cons c cs ih =>
    rcases step_spec h hm c with ⟨hc, hstep⟩ | ⟨hc, t', hstep, h', hm'⟩
    · exact .inl ⟨⟨[], c, cs, t, [], rfl, rfl, hc⟩, by rw [run, hstep, Option.bind_none]⟩
    · rw [stops_cons_iff hstep hc, run, hstep, Option.bind_some, noteAll]
      rcases ih h' hm' with ⟨hs, hrun⟩ | ⟨hs, t₂, hrun, h₂, hm₂⟩
      · exact .inl ⟨hs, by rw [hrun, Option.map_none]⟩
      · exact .inr ⟨hs, t₂, by rw [hrun, Option.map_some], h₂, hm₂⟩

/-! ## Queries -/

/-- The least key in `p`, or 0 if there is none. -/
def Least (p : UInt64 → Prop) (k : UInt64) : Prop := (p k ∧ ∀ j, p j → k ≤ j) ∨ (k = 0 ∧ ∀ j, ¬p j)

/-- The greatest key in `p`, or 0 if there is none. -/
def Greatest (p : UInt64 → Prop) (k : UInt64) : Prop := (p k ∧ ∀ j, p j → j ≤ k) ∨ (k = 0 ∧ ∀ j, ¬p j)

/-- The tree answers as the map does. -/
structure Represents (t : RbTree V) (m : UInt64 → Option V) : Prop where
  search_eq : ∀ k, search t k = m k
  calls : Sorted (foreach t) ∧ Lists (foreach t) m
  least : Least (fun k => m k ≠ none) (min t)
  greatest : Greatest (fun k => m k ≠ none) (max t)
  next : ∀ k, m k ≠ none → Least (fun j => m j ≠ none ∧ k < j) (successor t k)
  previous : ∀ k, m k ≠ none → Greatest (fun j => m j ≠ none ∧ j < k) (predecessor t k)
  missing : ∀ k, m k = none → successor t k = 0 ∧ predecessor t k = 0

theorem least_head {l : List (UInt64 × V)} (h : Sorted l) :
    Least (fun k => ∃ v, (k, v) ∈ l) ((l.head?.map Prod.fst).getD 0) := by
  cases l with
  | nil => exact .inr ⟨rfl, by simp⟩
  | cons e l =>
    refine .inl ⟨⟨e.2, List.mem_cons_self⟩, fun j ⟨v, hv⟩ => ?_⟩
    rcases List.mem_cons.mp hv with rfl | hmem
    · exact UInt64.le_refl j
    · exact UInt64.le_of_lt ((List.pairwise_cons.mp h).1 _ hmem)

theorem greatest_getLast {l : List (UInt64 × V)} (h : Sorted l) :
    Greatest (fun k => ∃ v, (k, v) ∈ l) ((l.getLast?.map Prod.fst).getD 0) := by
  rcases List.eq_nil_or_concat' l with rfl | ⟨l, e, rfl⟩
  · exact .inr ⟨rfl, by simp⟩
  · rw [List.getLast?_concat]
    refine .inl ⟨⟨e.2, by simp⟩, fun j ⟨v, hv⟩ => ?_⟩
    rcases List.mem_append.mp hv with hmem | hmem
    · exact UInt64.le_of_lt ((List.pairwise_append.mp h).2.2 _ hmem e List.mem_cons_self)
    · obtain rfl := List.mem_singleton.mp hmem
      exact UInt64.le_refl j

theorem Least.congr {p q : UInt64 → Prop} {k : UInt64} (h : Least p k) (hpq : ∀ j, p j ↔ q j) : Least q k := by
  obtain rfl : p = q := funext fun j => propext (hpq j)
  exact h

theorem Greatest.congr {p q : UInt64 → Prop} {k : UInt64} (h : Greatest p k) (hpq : ∀ j, p j ↔ q j) :
    Greatest q k := by
  obtain rfl : p = q := funext fun j => propext (hpq j)
  exact h

theorem Lists.bound_iff {l : List (UInt64 × V)} (h : Lists l m) (k : UInt64) : (∃ v, (k, v) ∈ l) ↔ m k ≠ none := by
  rw [Option.ne_none_iff_exists']
  exact exists_congr fun v => h k v

theorem map_key_getD (o : Option (Node V)) :
    (o.map Node.key).getD 0 = ((o.map Node.binding).map Prod.fst).getD 0 := by
  cases o <;> rfl

theorem bound_after_iff (hm : Lists (a ++ (key, v) :: b) m) (ha : ∀ e ∈ a, e.1 < key) (hb : ∀ e ∈ b, key < e.1)
    (j : UInt64) : (∃ w, (j, w) ∈ b) ↔ m j ≠ none ∧ key < j := by
  rw [← hm.bound_iff]
  constructor
  · rintro ⟨w, hw⟩
    exact ⟨⟨w, by simp [hw]⟩, hb _ hw⟩
  · rintro ⟨⟨w, hw⟩, hlt⟩
    rcases List.mem_append.mp hw with hmem | hmem
    · exact absurd (UInt64.lt_trans hlt (ha _ hmem)) (UInt64.lt_irrefl key)
    · rcases List.mem_cons.mp hmem with heq | hmem
      · exact absurd (Prod.mk.inj heq).1 (UInt64.ne_of_lt hlt).symm
      · exact ⟨w, hmem⟩

theorem bound_before_iff (hm : Lists (a ++ (key, v) :: b) m) (ha : ∀ e ∈ a, e.1 < key) (hb : ∀ e ∈ b, key < e.1)
    (j : UInt64) : (∃ w, (j, w) ∈ a) ↔ m j ≠ none ∧ j < key := by
  rw [← hm.bound_iff]
  constructor
  · rintro ⟨w, hw⟩
    exact ⟨⟨w, by simp [hw]⟩, ha _ hw⟩
  · rintro ⟨⟨w, hw⟩, hlt⟩
    rcases List.mem_append.mp hw with hmem | hmem
    · exact ⟨w, hmem⟩
    · rcases List.mem_cons.mp hmem with heq | hmem
      · exact absurd (Prod.mk.inj heq).1 (UInt64.ne_of_lt hlt)
      · exact absurd (UInt64.lt_trans hlt (hb _ hmem)) (UInt64.lt_irrefl j)

theorem successor_of_found {p : List (Frame (Node V))} {l r : BinTree (Node V)} {n : Node V}
    (h : treeSearch t key = (.node l n r, p)) :
    successor t key = ((bindings r ++ (after p).map Node.binding).head?.map Prod.fst).getD 0 := by
  cases r with
  | nil => simp [successor, h, climb_left, bindings, toList, map_key_getD]
  | node rl rn rr =>
    rw [successor, h]
    simp only [leftmost_eq, map_key_getD, bindings, ← List.map_append, List.head?_map]
    have hne : (BinTree.node rl rn rr).toList ≠ [] := by
      intro hnil
      cases toList_eq_nil_iff.mp hnil
    rw [List.head?_append_of_ne_nil _ hne]

theorem predecessor_of_found {p : List (Frame (Node V))} {l r : BinTree (Node V)} {n : Node V}
    (h : treeSearch t key = (.node l n r, p)) :
    predecessor t key = (((before p).map Node.binding ++ bindings l).getLast?.map Prod.fst).getD 0 := by
  cases l with
  | nil => simp [predecessor, h, climb_right, bindings, toList, map_key_getD]
  | node ll ln lr =>
    rw [predecessor, h]
    simp only [rightmost_eq, map_key_getD, bindings, ← List.map_append, List.getLast?_map]
    have hne : (BinTree.node ll ln lr).toList ≠ [] := by
      intro hnil
      cases toList_eq_nil_iff.mp hnil
    rw [List.getLast?_append_of_ne_nil _ hne]

theorem Valid.represents (h : Valid t) (hm : Lists (bindings t.root) m) : Represents t m := by
  have hfound : ∀ {k l n r p}, treeSearch t k = (.node l n r, p) →
      ∃ a b, Lists (a ++ (k, n.value) :: b) m ∧ (∀ e ∈ a, e.1 < k) ∧ (∀ e ∈ b, k < e.1) ∧ Sorted a ∧ Sorted b ∧
        successor t k = (b.head?.map Prod.fst).getD 0 ∧ predecessor t k = (a.getLast?.map Prod.fst).getD 0 := by
    intro k l n r p hsearch
    obtain ⟨hplug, rfl⟩ := h.split_of_found hsearch
    have hroot := bindings_plug_node p l r n
    rw [hplug] at hroot
    have hsorted := h.sorted
    rw [hroot] at hsorted
    obtain ⟨hab, hbefore, hafter⟩ := sorted_cons_iff.mp hsorted
    obtain ⟨ha, hb, -⟩ := List.pairwise_append.mp hab
    exact ⟨_, _, hroot ▸ hm, hbefore, hafter, ha, hb, successor_of_found hsearch, predecessor_of_found hsearch⟩
  have hnone : ∀ {k p}, treeSearch t k = (.nil, p) → m k = none := h.eq_none_of_missing hm
  have hcases : ∀ k, (∃ p, treeSearch t k = (.nil, p)) ∨ ∃ l n r p, treeSearch t k = (.node l n r, p) := by
    intro k
    obtain ⟨s, p, hsearch⟩ : ∃ s p, treeSearch t k = (s, p) := ⟨_, _, rfl⟩
    cases s with
    | nil => exact .inl ⟨p, hsearch⟩
    | node l n r => exact .inr ⟨l, n, r, p, hsearch⟩
  have hbound : ∀ {k}, m k ≠ none → ∃ l n r p, treeSearch t k = (.node l n r, p) := by
    intro k hk
    refine (hcases k).resolve_left ?_
    rintro ⟨p, hsearch⟩
    exact hk (hnone hsearch)
  exact
    { search_eq := fun k => by
        rcases hcases k with ⟨p, hsearch⟩ | ⟨l, n, r, p, hsearch⟩
        · rw [search, hsearch, hnone hsearch]
        · obtain ⟨a, b, hlists, -⟩ := hfound hsearch
          rw [search, hsearch, hlists.eq_some]
      calls := ⟨h.sorted, hm⟩
      least := by
        rw [min, leftmost_eq, map_key_getD, ← List.head?_map]
        exact (least_head h.sorted).congr hm.bound_iff
      greatest := by
        rw [max, rightmost_eq, map_key_getD, ← List.getLast?_map]
        exact (greatest_getLast h.sorted).congr hm.bound_iff
      next := fun k hk => by
        obtain ⟨l, n, r, p, hsearch⟩ := hbound hk
        obtain ⟨a, b, hlists, ha, hb, -, hsorted, heq, -⟩ := hfound hsearch
        rw [heq]
        exact (least_head hsorted).congr (bound_after_iff hlists ha hb)
      previous := fun k hk => by
        obtain ⟨l, n, r, p, hsearch⟩ := hbound hk
        obtain ⟨a, b, hlists, ha, hb, hsorted, -, -, heq⟩ := hfound hsearch
        rw [heq]
        exact (greatest_getLast hsorted).congr (bound_before_iff hlists ha hb)
      missing := fun k hk => by
        rcases hcases k with ⟨p, hsearch⟩ | ⟨l, n, r, p, hsearch⟩
        · exact ⟨by rw [successor, hsearch], by rw [predecessor, hsearch]⟩
        · obtain ⟨a, b, hlists, -⟩ := hfound hsearch
          have hsome := hlists.eq_some
          rw [hk] at hsome
          cases hsome }

/-- **Runs of a tree.** A run of insertions and deletions stops exactly at the first deletion that is stuck. Otherwise
it leaves a red-black tree with the bindings and the answers of the map, and the statuses are those of the map. -/
theorem run_correct (cs : List (Call V)) :
    (run create cs = none ↔ Stops create cs) ∧
      ∀ t statuses, run create cs = some (t, statuses) →
        statuses = (noteAll (fun _ => none) cs).2 ∧ Valid t ∧ Represents t (noteAll (fun _ => none) cs).1 := by
  have hempty : Lists (bindings (create : RbTree V).root) fun _ => none := fun k v => by simp [create, bindings, toList]
  rcases run_cases cs valid_create hempty with ⟨hs, hrun⟩ | ⟨hs, t, hrun, ht, hm⟩
  · exact ⟨⟨fun _ => hs, fun _ => hrun⟩, fun t statuses h => by simp [hrun] at h⟩
  · refine ⟨⟨fun h => by simp [hrun] at h, fun h => absurd h hs⟩, fun t' statuses h => ?_⟩
    obtain ⟨rfl, rfl⟩ : t = t' ∧ _ := by simpa [hrun] using h
    exact ⟨rfl, ht, ht.represents hm⟩

/-! ## The height -/

theorem two_pow_blackHeight_le {t : BinTree (Node V)} {n : ℕ} (h : BlackHeight t n) : 2 ^ n ≤ t.size + 1 := by
  induction t generalizing n with
  | nil =>
    obtain rfl : n = 0 := h
    exact Nat.le_refl 1
  | node l x r ihl ihr =>
    obtain ⟨m, rfl, hl, hr⟩ := h
    have hrank : x.color.rank ≤ 1 := by cases x.color <;> simp [Color.rank]
    calc 2 ^ (m + x.color.rank) ≤ 2 ^ (m + 1) := Nat.pow_le_pow_right Nat.two_pos (Nat.add_le_add_left hrank m)
      _ = 2 ^ m + 2 ^ m := by rw [Nat.pow_succ, Nat.mul_two]
      _ ≤ (l.size + 1) + (r.size + 1) := Nat.add_le_add (ihl hl) (ihr hr)
      _ = (BinTree.node l x r).size + 1 := by
        rw [BinTree.size]
        omega

/-- At most every second node on a path is red. -/
theorem height_le_blackHeight {t : BinTree (Node V)} {n : ℕ} (h : BlackHeight t n) (hcolors : NoRedRed t) :
    t.height ≤ 2 * n + (isRed t).toNat := by
  induction t generalizing n with
  | nil => exact Nat.zero_le _
  | node l x r ihl ihr =>
    obtain ⟨m, rfl, hl, hr⟩ := h
    obtain ⟨hlc, hrc, hx⟩ := hcolors
    have hl' := ihl hl hlc
    have hr' := ihr hr hrc
    rw [height]
    cases hcolor : x.color with
    | red =>
      obtain ⟨hlb, hrb⟩ := hx hcolor
      have hred : isRed (.node l x r) = true := by simpa [isRed] using hcolor
      rw [hlb, Bool.toNat_false] at hl'
      rw [hrb, Bool.toNat_false] at hr'
      rw [hred, Bool.toNat_true, Color.rank]
      omega
    | black =>
      have hl1 := Bool.toNat_le (isRed l)
      have hr1 := Bool.toNat_le (isRed r)
      rw [Color.rank]
      omega

theorem Valid.height_le (h : Valid t) : ∃ n, t.root.height ≤ 2 * n ∧ 2 ^ n ≤ t.size + 1 := by
  obtain ⟨n, hn⟩ := h.height
  have hheight := height_le_blackHeight hn h.colors.1
  rw [h.colors.2, Bool.toNat_false, Nat.add_zero] at hheight
  refine ⟨n, hheight, ?_⟩
  rw [h.size, bindings, List.length_map, length_toList]
  exact two_pow_blackHeight_le hn

/-- **The height.** A tree that a run leaves is so low that a search passes at most `2 * log2 (size + 1)` nodes, and
that the stack of `SNEPPX_rbtree_destroy` does not overflow: every node is freed, in the order of the keys. -/
theorem run_balanced {cs : List (Call V)} {statuses : List Bool} (h : run create cs = some (t, statuses)) :
    (∀ key, (treeSearch t key).2.length ≤ 2 * Nat.log2 (t.size + 1)) ∧
      (t.size < 2 ^ 64 → ∃ freed, destroy t = some freed ∧ freed.map Node.binding = foreach t) := by
  have hempty : Lists (bindings (create : RbTree V).root) fun _ => none := fun k v => by simp [create, bindings, toList]
  have ht : Valid t := by
    rcases run_cases cs valid_create hempty with ⟨-, hrun⟩ | ⟨-, t', hrun, ht, -⟩
    · simp [hrun] at h
    · obtain ⟨rfl, -⟩ : t' = t ∧ _ := by simpa [hrun] using h
      exact ht
  obtain ⟨n, hheight, hsize⟩ := ht.height_le
  constructor
  · intro key
    have hpath : (treeSearch t key).2.length ≤ 0 + t.root.height := length_descend_le _ _ _
    have hlog : n ≤ Nat.log2 (t.size + 1) := (Nat.le_log2 (Nat.succ_ne_zero _)).mpr hsize
    omega
  · intro hlt
    have hn : n ≤ 64 := (Nat.pow_le_pow_iff_right (Nat.lt_succ_self 1)).mp (hsize.trans (Nat.succ_le_of_lt hlt))
    have hdepth : leftDepth t.root ≤ 1024 := (leftDepth_le_height _).trans (by omega)
    exact ⟨t.root.toList, by rw [destroy, unstack_eq, if_pos hdepth], rfl⟩

theorem run_balanced_fourKeys : ∃ t : RbTree ℕ, ∃ statuses, run create [.insert 5 50 true, .insert 3 30 true,
    .insert 8 80 true, .insert 9 90 true, .delete 5] = some (t, statuses) ∧
    foreach t = [(3, 30), (8, 80), (9, 90)] ∧ (∀ key, (treeSearch t key).2.length ≤ 2 * Nat.log2 (t.size + 1)) ∧
      ∃ freed, destroy t = some freed ∧ freed.map Node.binding = foreach t := by
  have hrun : (run (create : RbTree ℕ) [.insert 5 50 true, .insert 3 30 true, .insert 8 80 true, .insert 9 90 true,
      .delete 5]).map (fun r => (foreach r.1, r.1.size)) = some ([(3, 30), (8, 80), (9, 90)], 3) := by decide +kernel
  obtain ⟨⟨t, statuses⟩, hrun, heq⟩ := Option.map_eq_some_iff.mp hrun
  obtain ⟨hlist, hsize⟩ := Prod.mk.inj heq
  have hlt : t.size < 2 ^ 64 := lt_of_eq_of_lt hsize (by decide)
  exact ⟨t, statuses, hrun, hlist, (run_balanced hrun).1, (run_balanced hrun).2 hlt⟩

end SneppxAlg.RedBlack
