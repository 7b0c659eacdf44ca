import Mathlib
import SneppxAlg.Lib.TreeZipper

/-!
# `rbtree.c`: the tree under insertions

A node is a label of the tree, and a pointer to a node is a place: the subtree with the path to the root, which stands
for the parent pointers. `insert_fixup` recolours and rotates along the path.

A place that is to be repaired has a valid subtree, and a path that is valid but for two red nodes next to each other
(`Fixable`). A step of the loop keeps this, with a shorter path, and never needs a grandparent that does not exist. So
the tree is a red-black tree with the same bindings in the same order after any insertions, and the queries, which only
follow pointers, are those of the map (`Represents`).
-/

namespace SneppxAlg.RedBlack

open Lib.TreeZipper Lib.TreeZipper.BinTree

/-! ## The tree -/

/-- `SNEPPXRBColor`. -/
inductive Color where
  | red
  | black
deriving DecidableEq

/-- The fields of `SNEPPXRBNode` that are not pointers to nodes. -/
structure Node (V : Type*) where
  color : Color
  key : UInt64
  value : V

variable {V : Type*}

/-- The node in another colour. -/
def Node.paint (n : Node V) (c : Color) : Node V := { n with color := c }

/-- `SNEPPXRBTree`, with `default_compare`. -/
structure RbTree (V : Type*) where
  root : BinTree (Node V)
  size : ℕ

/-- `SNEPPX_rbtree_create`. -/
def create : RbTree V := ⟨.nil, 0⟩

/-- A pointer that is not `NULL`, to a red node. -/
def isRed : BinTree (Node V) → Bool
  | .nil => false
  | .node _ n _ => n.color = .red

/-- The node that a pointer goes to in another colour. -/
def paint (c : Color) : BinTree (Node V) → BinTree (Node V)
  | .nil => .nil
  | .node l n r => .node l (n.paint c) r

def child (s : Side) : BinTree (Node V) → BinTree (Node V)
  | .nil => .nil
  | .node l _ r => match s with
    | .left => l
    | .right => r

/-! ## Insertions -/

/-- `z = z->parent; rotate_left(tree, z)`, and with the sides exchanged: the parent goes below `z`, on the other side,
and is the place that is looked at next. -/
def rotateUp (z : BinTree (Node V)) (f : Frame (Node V)) (s : Side) : BinTree (Node V) × Frame (Node V) :=
  match z with
  | .nil => (z, f)
  | .node _ n _ => (f.fill (child s z), ⟨s, n, child f.side z⟩)

/-- One step of `insert_fixup` where the parent `f` of `z` is red: `g` is the grandparent, `q` the path above it. -/
def fixupStep (z : BinTree (Node V)) (f g : Frame (Node V)) (q : List (Frame (Node V))) :
    BinTree (Node V) × List (Frame (Node V)) :=
  let y := g.other
  if isRed y then
    let parent : Frame (Node V) := ⟨f.side, f.label.paint .black, f.other⟩
    let grandparent : Frame (Node V) := ⟨g.side, g.label.paint .red, paint .black y⟩
    (grandparent.fill (parent.fill z), q)
  else
    let (z, f) := if f.side = g.side then (z, f) else rotateUp z f g.side
    -- the rotation of the grandparent: it goes below the parent, on the other side of `z`
    let grandparent : Frame (Node V) := ⟨g.side, g.label.paint .red, y⟩
    (z, ⟨f.side, f.label.paint .black, grandparent.fill f.other⟩ :: q)

theorem length_fixupStep (z : BinTree (Node V)) (f g : Frame (Node V)) (q : List (Frame (Node V))) :
    (fixupStep z f g q).2.length ≤ q.length + 1 := by
  rw [fixupStep]
  split_ifs
  · exact Nat.le_succ _
  · exact Nat.le_refl _
  · exact Nat.le_refl _

/-- `insert_fixup`, before the root is painted; `none` where it reads through the parent of the root. -/
def insertFixup (z : BinTree (Node V)) (p : List (Frame (Node V))) : Option (BinTree (Node V)) :=
  match p with
  | [] => some z
  | f :: p =>
    if f.label.color = .red then
      match p with
      | [] => none
      | g :: q => insertFixup (fixupStep z f g q).1 (fixupStep z f g q).2
    else some (plug (f :: p) z)
termination_by p.length
decreasing_by
  have h := length_fixupStep z f g q
  simp only [List.length_cons]
  omega

/-- `tree_search` and the loop of `SNEPPX_rbtree_insert`. `default_compare` compares unsigned numbers. -/
def treeSearch (t : RbTree V) (key : UInt64) : BinTree (Node V) × List (Frame (Node V)) :=
  descend (fun n => n.key.toNat) key.toNat t.root []

/-- `SNEPPX_rbtree_insert`, where `alloc` says whether there is memory for a node. `none` stands for an access through
`NULL`, and the `Bool` for the status 0. -/
def insert (t : RbTree V) (key : UInt64) (value : V) (alloc : Bool) : Option (RbTree V × Bool) :=
  match treeSearch t key with
  | (.node l n r, p) => some (⟨plug p (.node l { n with value := value } r), t.size⟩, true)
  | (.nil, p) =>
    if alloc then
      (insertFixup (.node .nil ⟨.red, key, value⟩ .nil) p).map fun root =>
        (⟨paint .black root, t.size + 1⟩, true)
    else some (t, false)

/-! ## Deletions -/

def opposite : Side → Side
  | .left => .right
  | .right => .left

/-- The node from which a stretch of left children goes down, as a place: its last node, that node's right child, and
the path (`tree_minimum`). -/
def treeMinimum : BinTree (Node V) → Node V → BinTree (Node V) → List (Frame (Node V)) →
    Node V × BinTree (Node V) × List (Frame (Node V))
  | .nil, n, r, p => (n, r, p)
  | .node ll ln lr, n, r, p => treeMinimum ll ln lr (⟨.left, n, r⟩ :: p)

/-- The first rotation of a step of `delete_fixup`, which makes a red sibling the grandparent. -/
def lowerParent (f : Frame (Node V)) (p : List (Frame (Node V))) : Frame (Node V) × List (Frame (Node V)) :=
  match f.other with
  | .nil => (f, p)
  | .node l w r =>
    if w.color = .red then
      (⟨f.side, f.label.paint .red, child f.side (.node l w r)⟩,
        ⟨f.side, w.paint .black, child (opposite f.side) (.node l w r)⟩ :: p)
    else (f, p)

/-- The rotation of the sibling where its child on the far side is black; `none` where it reads through `NULL`. -/
def raiseNear (s : Side) : BinTree (Node V) → Option (BinTree (Node V))
  | .nil => none
  | .node l w r =>
    if isRed (child (opposite s) (.node l w r)) then some (.node l w r)
    else
      match child s (.node l w r) with
      | .nil => none
      | .node nl near nr =>
        let lowered : Frame (Node V) := ⟨s, w.paint .red, child (opposite s) (.node l w r)⟩
        let raised : Frame (Node V) :=
          ⟨s, near.paint .black, lowered.fill (child (opposite s) (.node nl near nr))⟩
        some (raised.fill (child s (.node nl near nr)))

/-- The last rotation of a step of `delete_fixup`, after which `x` is the root: the sibling `w` takes the place of the
parent `f`. -/
def raiseSibling (x : BinTree (Node V)) (f : Frame (Node V)) (p : List (Frame (Node V))) :
    BinTree (Node V) → Option (BinTree (Node V))
  | .nil => none
  | .node l w r =>
    let parent : Frame (Node V) := ⟨f.side, f.label.paint .black, child f.side (.node l w r)⟩
    let sibling : Frame (Node V) :=
      ⟨f.side, w.paint f.label.color, paint .black (child (opposite f.side) (.node l w r))⟩
    some (plug p (sibling.fill (parent.fill x)))

/-- One step of `delete_fixup` for a black `x` below `f`. -/
def deleteStep (x : BinTree (Node V)) (f : Frame (Node V)) (p : List (Frame (Node V))) :
    Option (BinTree (Node V) × List (Frame (Node V))) :=
  let (f, p) := lowerParent f p
  match f.other with
  | .nil => none
  | .node l w r =>
    if isRed l || isRed r then
      (raiseNear f.side (.node l w r)).bind fun w => (raiseSibling x f p w).map fun root => (root, [])
    else some (Frame.fill ⟨f.side, f.label, .node l (w.paint .red) r⟩ x, p)

theorem lowerParent_path (f : Frame (Node V)) (p : List (Frame (Node V))) :
    (lowerParent f p).2 = p ∨ (lowerParent f p).1.label.color = .red := by
  unfold lowerParent
  split
  · exact .inl rfl
  · split_ifs
    · exact .inr rfl
    · exact .inl rfl

theorem deleteStep_path {x x' : BinTree (Node V)} {f : Frame (Node V)} {p p' : List (Frame (Node V))}
    (h : deleteStep x f p = some (x', p')) : isRed x' = true ∨ p'.length ≤ p.length := by
  simp only [deleteStep] at h
  split at h
  · nomatch h
  · split_ifs at h
    · obtain ⟨_, -, hmap⟩ := Option.bind_eq_some_iff.mp h
      obtain ⟨_, -, heq⟩ := Option.map_eq_some_iff.mp hmap
      obtain rfl := (Prod.mk.inj heq).2
      exact .inr (Nat.zero_le _)
    · obtain ⟨rfl, rfl⟩ := Prod.mk.inj (Option.some.inj h)
      rcases lowerParent_path f p with hp | hred
      · exact .inr (Nat.le_of_eq (by rw [hp]))
      · cases hside : (lowerParent f p).1.side <;> simp [Frame.fill, isRed, hred]

/-- `delete_fixup`; `none` where it reads through `NULL`. -/
def deleteFixup (x : BinTree (Node V)) (p : List (Frame (Node V))) : Option (BinTree (Node V)) :=
  match p, x with
  | [], x => some (paint .black x)
  | _ :: _, .nil => none
  | f :: p, .node l n r =>
    if _hred : n.color = .red then some (plug (f :: p) (paint .black (.node l n r)))
    else
      match _h : deleteStep (.node l n r) f p with
      | none => none
      | some (x, q) => deleteFixup x q
termination_by if isRed x then 0 else p.length + 1
decreasing_by
  rw [if_neg (show ¬isRed (.node l n r) = true by simpa [isRed] using _hred)]
  rcases deleteStep_path _h with hstop | hle
  · rw [if_pos hstop]
    exact Nat.succ_pos _
  · have hlt : q.length + 1 < (f :: p).length + 1 := by
      rw [List.length_cons]
      omega
    split_ifs
    · exact Nat.succ_pos _
    · exact hlt

/-- The part of `SNEPPX_rbtree_delete` before `delete_fixup`: `y_orig_color`, and the place of `x`; `none` where the
key is missing. -/
def unlink (t : RbTree V) (key : UInt64) : Option (Color × BinTree (Node V) × List (Frame (Node V))) :=
  match treeSearch t key with
  | (.nil, _) => none
  | (.node .nil z r, p) => some (z.color, r, p)
  | (.node l z .nil, p) => some (z.color, l, p)
  | (.node l z (.node rl rn rr), p) =>
    let (y, x, q) := treeMinimum rl rn rr []
    some (y.color, x, q ++ ⟨.right, y.paint z.color, l⟩ :: p)

/-- `SNEPPX_rbtree_delete`. `none` stands for an access through `NULL`, and the `Bool` for the status 0. -/
def delete (t : RbTree V) (key : UInt64) : Option (RbTree V × Bool) :=
  match unlink t key with
  | none => some (t, false)
  | some (color, x, p) =>
    (if color = .black then deleteFixup x p else some (plug p x)).map fun root => (⟨root, t.size - 1⟩, true)

/-! ## Queries -/

/-- `SNEPPX_rbtree_search`. -/
def search (t : RbTree V) (key : UInt64) : Option V :=
  match (treeSearch t key).1 with
  | .nil => none
  | .node _ n _ => some n.value

/-- `SNEPPX_rbtree_min`. -/
def min (t : RbTree V) : UInt64 := (t.root.leftmost.map Node.key).getD 0

/-- `SNEPPX_rbtree_max`. -/
def max (t : RbTree V) : UInt64 := (t.root.rightmost.map Node.key).getD 0

/-- `SNEPPX_rbtree_successor`. -/
def successor (t : RbTree V) (key : UInt64) : UInt64 :=
  match treeSearch t key with
  | (.nil, _) => 0
  | (.node _ _ .nil, p) => ((climb .left p).map Node.key).getD 0
  | (.node _ _ r, _) => (r.leftmost.map Node.key).getD 0

/-- `SNEPPX_rbtree_predecessor`. -/
def predecessor (t : RbTree V) (key : UInt64) : UInt64 :=
  match treeSearch t key with
  | (.nil, _) => 0
  | (.node .nil _ _, p) => ((climb .right p).map Node.key).getD 0
  | (.node l _ _, _) => (l.rightmost.map Node.key).getD 0

/-- `SNEPPX_rbtree_foreach`: the calls of `fn`. -/
def foreach (t : RbTree V) : List (UInt64 × V) := t.root.toList.map fun n => (n.key, n.value)

/-- `SNEPPX_rbtree_destroy`: the nodes in the order in which they are freed; `none` where `stack` overflows. -/
def destroy (t : RbTree V) : Option (List (Node V)) := unstack 1024 t.root []

/-! ## Colours and heights -/

/-- What a colour counts for on a path. -/
def Color.rank : Color → ℕ
  | .red => 0
  | .black => 1

/-- All paths down have `n` black nodes. -/
def BlackHeight : BinTree (Node V) → ℕ → Prop
  | .nil, n => n = 0
  | .node l x r, n => ∃ m, n = m + x.color.rank ∧ BlackHeight l m ∧ BlackHeight r m

/-- No red node has a red child. -/
def NoRedRed : BinTree (Node V) → Prop
  | .nil => True
  | .node l x r => NoRedRed l ∧ NoRedRed r ∧ (x.color = .red → isRed l = false ∧ isRed r = false)

/-- The other subtrees along a path, for a place with `n` black nodes. -/
def PathHeight : List (Frame (Node V)) → ℕ → Prop
  | [], _ => True
  | f :: p, n => BlackHeight f.other n ∧ PathHeight p (n + f.label.color.rank)

/-- The colours along a path, up to a black root, for a place that is red or not. -/
def PathColors : List (Frame (Node V)) → Bool → Prop
  | [], red => red = false
  | f :: p, red => NoRedRed f.other ∧ (f.label.color = .red → red = false ∧ isRed f.other = false) ∧
    PathColors p (f.label.color = .red)

theorem blackHeight_fill (f : Frame (Node V)) (t : BinTree (Node V)) (n : ℕ) :
    BlackHeight (f.fill t) n ↔ ∃ m, n = m + f.label.color.rank ∧ BlackHeight t m ∧ BlackHeight f.other m := by
  obtain ⟨side, x, o⟩ := f
  cases side with
  | left => rfl
  | right =>
    simp only [Frame.fill, BlackHeight]
    exact exists_congr fun m => and_congr_right fun _ => and_comm

theorem noRedRed_fill (f : Frame (Node V)) (t : BinTree (Node V)) :
    NoRedRed (f.fill t) ↔ NoRedRed t ∧ NoRedRed f.other ∧
      (f.label.color = .red → isRed t = false ∧ isRed f.other = false) := by
  obtain ⟨side, x, o⟩ := f
  cases side with
  | left => rfl
  | right =>
    simp only [Frame.fill, NoRedRed]
    constructor
    · rintro ⟨h1, h2, h3⟩
      exact ⟨h2, h1, fun h => (h3 h).symm⟩
    · rintro ⟨h1, h2, h3⟩
      exact ⟨h2, h1, fun h => (h3 h).symm⟩

theorem isRed_fill (f : Frame (Node V)) (t : BinTree (Node V)) : isRed (f.fill t) = (f.label.color = .red : Bool) := by
  obtain ⟨side, x, o⟩ := f
  cases side <;> rfl

theorem blackHeight_plug {p : List (Frame (Node V))} {t : BinTree (Node V)} :
    (∃ m, BlackHeight (plug p t) m) ↔ ∃ n, BlackHeight t n ∧ PathHeight p n := by
  induction p generalizing t with
  | nil => simp [plug, PathHeight]
  | cons f p ih =>
    rw [plug, ih]
    simp only [blackHeight_fill, PathHeight]
    constructor
    · rintro ⟨_, ⟨m, rfl, h1, h2⟩, h3⟩
      exact ⟨m, h1, h2, h3⟩
    · rintro ⟨m, h1, h2, h3⟩
      exact ⟨_, ⟨m, rfl, h1, h2⟩, h3⟩

theorem colors_plug {p : List (Frame (Node V))} {t : BinTree (Node V)} :
    NoRedRed (plug p t) ∧ isRed (plug p t) = false ↔ NoRedRed t ∧ PathColors p (isRed t) := by
  induction p generalizing t with
  | nil => rfl
  | cons f p ih =>
    rw [plug, ih, noRedRed_fill, isRed_fill, PathColors]
    constructor
    · rintro ⟨⟨h1, h2, h3⟩, h4⟩
      exact ⟨h1, h2, h3, h4⟩
    · rintro ⟨h1, h2, h3, h4⟩
      exact ⟨⟨h1, h2, h3⟩, h4⟩

theorem noRedRed_paint {t : BinTree (Node V)} (h : NoRedRed t) : NoRedRed (paint .black t) := by
  cases t with
  | nil => trivial
  | node l x r => exact ⟨h.1, h.2.1, fun h => nomatch h⟩

theorem isRed_paint (t : BinTree (Node V)) : isRed (paint .black t) = false := by
  cases t with
  | nil => rfl
  | node l x r => rfl

theorem blackHeight_paint {t : BinTree (Node V)} {n : ℕ} (h : BlackHeight t n) : ∃ m, BlackHeight (paint .black t) m := by
  cases t with
  | nil => exact ⟨n, h⟩
  | node l x r =>
    obtain ⟨m, -, hl, hr⟩ := h
    exact ⟨m + 1, m, rfl, hl, hr⟩

theorem blackHeight_paint_red {t : BinTree (Node V)} {n : ℕ} (h : BlackHeight t n) (hred : isRed t = true) :
    BlackHeight (paint .black t) (n + 1) := by
  cases t with
  | nil => cases hred
  | node l x r =>
    obtain ⟨m, hm, hl, hr⟩ := h
    have hx : x.color = .red := by simpa [isRed] using hred
    rw [hx, Color.rank] at hm
    exact ⟨m, by rw [hm]; rfl, hl, hr⟩

/-! ## The repair -/

/-- The key and the value of a node. -/
def Node.binding (x : Node V) : UInt64 × V := (x.key, x.value)

/-- The bindings from left to right. -/
def bindings (t : BinTree (Node V)) : List (UInt64 × V) := t.toList.map Node.binding

theorem bindings_fill (f : Frame (Node V)) (t : BinTree (Node V)) :
    bindings (f.fill t) = match f.side with
      | .left => bindings t ++ f.label.binding :: bindings f.other
      | .right => bindings f.other ++ f.label.binding :: bindings t := by
  obtain ⟨side, x, o⟩ := f
  cases side <;> simp [bindings, Frame.fill, toList]

theorem bindings_paint (t : BinTree (Node V)) : bindings (paint .black t) = bindings t := by
  cases t with
  | nil => rfl
  | node l x r => simp [bindings, paint, toList, Node.binding, Node.paint]

/-- The bindings of a tree around a place depend on those of the place only. -/
theorem bindings_plug (p : List (Frame (Node V))) (t : BinTree (Node V)) :
    bindings (plug p t) = (before p).map Node.binding ++ bindings t ++ (after p).map Node.binding := by
  simp [bindings, toList_plug]

theorem bindings_plug_congr (p : List (Frame (Node V))) {t t' : BinTree (Node V)} (h : bindings t = bindings t') :
    bindings (plug p t) = bindings (plug p t') := by
  rw [bindings_plug, bindings_plug, h]

/-- A path whose place may be red below a red node. -/
def Fixable : List (Frame (Node V)) → Prop
  | [] => True
  | f :: p => NoRedRed f.other ∧ (f.label.color = .red → isRed f.other = false) ∧ PathColors p (f.label.color = .red)

/-- What a step of the repair keeps. -/
structure FixInv (z : BinTree (Node V)) (p : List (Frame (Node V))) : Prop where
  red : isRed z = true
  colors : NoRedRed z
  fixable : Fixable p
  height : ∃ n, BlackHeight z n ∧ PathHeight p n

theorem fixable_of_pathColors {p : List (Frame (Node V))} (h : PathColors p false) : Fixable p := by
  cases p with
  | nil => trivial
  | cons f p => exact ⟨h.1, fun hred => (h.2.1 hred).2, h.2.2⟩

/-- What the rotation of the parent makes of a red place on the inner side of a red parent. -/
structure Rotated (z : BinTree (Node V)) (f : Frame (Node V)) (s : Side) (n : ℕ) (z' : BinTree (Node V))
    (f' : Frame (Node V)) : Prop where
  side : f'.side = s
  red : isRed z' = true
  colors : NoRedRed z'
  other : NoRedRed f'.other
  black : isRed f'.other = false
  height : BlackHeight z' n
  height_other : BlackHeight f'.other n
  bindings_eq : bindings (f'.fill z') = bindings (f.fill z)

theorem rotateUp_spec {z : BinTree (Node V)} {f : Frame (Node V)} {s : Side} {n : ℕ} (hs : f.side ≠ s)
    (hz : isRed z = true) (hcolors : NoRedRed z) (hf : f.label.color = .red) (hother : NoRedRed f.other)
    (hblack : isRed f.other = false) (hn : BlackHeight z n) (hn' : BlackHeight f.other n) :
    Rotated z f s n (rotateUp z f s).1 (rotateUp z f s).2 := by
  obtain ⟨side, x, o⟩ := f
  cases z with
  | nil => nomatch hz
  | node l y r =>
    have hy : y.color = .red := by simpa [isRed] using hz
    obtain ⟨hl, hr, hchildren⟩ := hcolors
    obtain ⟨hlb, hrb⟩ := hchildren hy
    obtain ⟨m, rfl, hlm, hrm⟩ := hn
    rw [hy, Color.rank, Nat.add_zero] at hn' ⊢
    cases side with
    | left =>
      cases s with
      | left => exact absurd rfl hs
      | right =>
        exact
          { side := rfl
            red := by simpa [rotateUp, Frame.fill, isRed] using hf
            colors := ⟨hr, hother, fun _ => ⟨hrb, hblack⟩⟩
            other := hl
            black := hlb
            height := ⟨m, by rw [hf]; rfl, hrm, hn'⟩
            height_other := hlm
            bindings_eq := by simp [rotateUp, bindings, Frame.fill, child, toList] }
    | right =>
      cases s with
      | left =>
        exact
          { side := rfl
            red := by simpa [rotateUp, Frame.fill, isRed] using hf
            colors := ⟨hother, hl, fun _ => ⟨hblack, hlb⟩⟩
            other := hr
            black := hrb
            height := ⟨m, by rw [hf]; rfl, hn', hlm⟩
            height_other := hrm
            bindings_eq := by simp [rotateUp, bindings, Frame.fill, child, toList] }
      | right => exact absurd rfl hs

/-- The rotation of the grandparent, below the parent. -/
theorem bindings_rotate {z o y : BinTree (Node V)} {x x' : Node V} (s : Side) :
    bindings (Frame.fill ⟨s, x.paint .black, Frame.fill ⟨s, x'.paint .red, y⟩ o⟩ z) =
      bindings (Frame.fill ⟨s, x', y⟩ (Frame.fill ⟨s, x, o⟩ z)) := by
  cases s with
  | left => simp [bindings, Frame.fill, toList, Node.paint, Node.binding]
  | right => simp [bindings, Frame.fill, toList, Node.paint, Node.binding]

theorem bindings_fill_congr (f : Frame (Node V)) {t t' : BinTree (Node V)} (h : bindings t = bindings t') :
    bindings (f.fill t) = bindings (f.fill t') := by
  rw [bindings_fill, bindings_fill, h]

theorem FixInv.grandparent {z : BinTree (Node V)} {f g : Frame (Node V)} {q : List (Frame (Node V))}
    (h : FixInv z (f :: g :: q)) (hf : f.label.color = .red) : g.label.color = .black := by
  obtain ⟨-, -, -, hg, -⟩ := h.fixable
  cases hcolor : g.label.color with
  | black => rfl
  | red => simpa [hf] using (hg hcolor).1

theorem fixupStep_inv {z : BinTree (Node V)} {f g : Frame (Node V)} {q : List (Frame (Node V))}
    (h : FixInv z (f :: g :: q)) (hf : f.label.color = .red) :
    FixInv (fixupStep z f g q).1 (fixupStep z f g q).2 ∧
      bindings (plug (fixupStep z f g q).2 (fixupStep z f g q).1) = bindings (plug (f :: g :: q) z) := by
  have hg := h.grandparent hf
  obtain ⟨hfother, hfblack, hgother, -, hq⟩ := h.fixable
  obtain ⟨n, hz, hfn, hgn, hqn⟩ := h.height
  have hq' : PathColors q false := by simpa [hg] using hq
  rw [hf, Color.rank, Nat.add_zero] at hgn hqn
  rw [hg, Color.rank] at hqn
  rw [fixupStep]
  by_cases huncle : isRed g.other = true
  · rw [if_pos huncle]
    refine ⟨{ red := ?_, colors := ?_, fixable := fixable_of_pathColors hq', height := ⟨n + 1, ?_, hqn⟩ }, ?_⟩
    · rw [isRed_fill]
      rfl
    · rw [noRedRed_fill, noRedRed_fill, isRed_fill]
      exact ⟨⟨h.colors, hfother, fun hb => nomatch hb⟩, noRedRed_paint hgother, fun _ => ⟨rfl, isRed_paint _⟩⟩
    · rw [blackHeight_fill]
      exact ⟨n + 1, rfl, (blackHeight_fill _ _ _).mpr ⟨n, rfl, hz, hfn⟩, blackHeight_paint_red hgn huncle⟩
    · exact bindings_plug_congr q (by simp [bindings_fill, bindings_paint, Node.binding, Node.paint])
  · rw [if_neg huncle]
    have hblack : isRed g.other = false := by simpa using huncle
    have key : ∀ z' f', Rotated z f g.side n z' f' →
        let grandparent : Frame (Node V) := ⟨g.side, g.label.paint .red, g.other⟩
        let p : List (Frame (Node V)) := ⟨f'.side, f'.label.paint .black, grandparent.fill f'.other⟩ :: q
        FixInv z' p ∧ bindings (plug p z') = bindings (plug (f :: g :: q) z) := by
      intro z' f' hrot
      obtain ⟨side, x, o⟩ := f'
      obtain rfl : side = g.side := hrot.side
      refine ⟨{ red := hrot.red, colors := hrot.colors, fixable := ⟨?_, ?_, hq'⟩, height := ⟨n, hrot.height, ?_, hqn⟩ }, ?_⟩
      · exact (noRedRed_fill _ _).mpr ⟨hrot.other, hgother, fun _ => ⟨hrot.black, hblack⟩⟩
      · intro hb
        nomatch hb
      · exact (blackHeight_fill _ _ _).mpr ⟨n, rfl, hrot.height_other, hgn⟩
      · refine bindings_plug_congr q ((bindings_rotate g.side).trans ?_)
        exact bindings_fill_congr g hrot.bindings_eq
    by_cases hside : f.side = g.side
    · simp only [if_pos hside]
      exact key z f
        { side := hside, red := h.red, colors := h.colors, other := hfother, black := hfblack hf, height := hz,
          height_other := hfn, bindings_eq := rfl }
    · simp only [if_neg hside]
      exact key _ _ (rotateUp_spec hside h.red h.colors hf hfother (hfblack hf) hz hfn)

/-- The loop finds every grandparent that it reads, and leaves a tree that is red-black but for the colour of the
root. -/
theorem insertFixup_spec {z : BinTree (Node V)} {p : List (Frame (Node V))} (h : FixInv z p) :
    ∃ root, insertFixup z p = some root ∧ NoRedRed (paint .black root) ∧ (∃ n, BlackHeight (paint .black root) n) ∧
      bindings root = bindings (plug p z) := by
  induction z, p using insertFixup.induct with
  | case1 z =>
    obtain ⟨n, hn, -⟩ := h.height
    exact ⟨z, by rw [insertFixup], noRedRed_paint h.colors, blackHeight_paint hn, rfl⟩
  | case2 z f hred =>
    -- the root is black
    have hroot : PathColors [] (f.label.color = .red : Bool) := h.fixable.2.2
    simp [PathColors, hred] at hroot
  | case3 z f hred g q ih =>
    obtain ⟨hinv, hbindings⟩ := fixupStep_inv h hred
    obtain ⟨root, hroot, hcolors, hheight, heq⟩ := ih hinv
    refine ⟨root, ?_, hcolors, hheight, heq.trans hbindings⟩
    rw [insertFixup, if_pos hred]
    exact hroot
  | case4 z f p hblack =>
    obtain ⟨hother, -, hp⟩ := h.fixable
    have hpath : PathColors (f :: p) (isRed z) := ⟨hother, fun hred => absurd hred hblack, hp⟩
    have hcolors : NoRedRed (plug (f :: p) z) := (colors_plug.mpr ⟨h.colors, hpath⟩).1
    obtain ⟨n, hn⟩ := blackHeight_plug.mpr h.height
    exact ⟨plug (f :: p) z, by rw [insertFixup.eq_def]; exact if_neg hblack, noRedRed_paint hcolors, blackHeight_paint hn, rfl⟩

end SneppxAlg.RedBlack
