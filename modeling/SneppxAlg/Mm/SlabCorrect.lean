import SneppxAlg.Mm.Slab

/-!
# `slab_alloc.c`: slabs on the right lists

Two invariants: every slab is on the one list that its free count calls for (`Lists`), and the blocks
of a slab are those on its free list together with those in use (`Blocks`). An operation takes a slab
off its list, changes it, and puts it on a list again; in between the slab is *held*. `free` takes the
slab off only if it is the first of its list, and all runs in which it is keep the invariants
(`run_good`). Where it is not, the slab ends up on two lists, or in a cycle.
-/

namespace SneppxAlg.Slab

open Lib.LinkedList

/-! ## Lists -/

/-- The lists of a cache. -/
inductive Kind where
  | full
  | part
  | empty
deriving DecidableEq

/-- The list for a slab with `used` of `n` blocks in use. -/
def Kind.of (used n : ℕ) : Kind := if used = n then .full else if used = 0 then .empty else .part

/-- The list for a slab, by its free count. -/
def SlabNode.kind (s : SlabNode) : Kind :=
  if s.freeCount = 0 then .full else if s.freeCount = s.numBlocks then .empty else .part

/-- The first slab of a list. -/
def Cache.list (c : Cache) : Kind → Option ℕ
  | .full => c.fullList
  | .part => c.partialList
  | .empty => c.freeList

/-- The cache with another first slab. -/
def Cache.setList (c : Cache) (k : Kind) (p : Option ℕ) : Cache :=
  match k with
  | .full => { c with fullList := p }
  | .part => { c with partialList := p }
  | .empty => { c with freeList := p }

section

variable {c : Cache} {ls : Kind → List ℕ} {a : ℕ} {s : SlabNode} {k : Kind}

@[simp] theorem list_setList_self (c : Cache) (k : Kind) (p : Option ℕ) : (c.setList k p).list k = p := by
  cases k <;> rfl

theorem list_setList_of_ne (c : Cache) {k k' : Kind} (h : k' ≠ k) (p : Option ℕ) :
    (c.setList k p).list k' = c.list k' := by
  cases k <;> cases k' <;> first | rfl | exact absurd rfl h

@[simp] theorem slabs_setList (c : Cache) (k : Kind) (p : Option ℕ) : (c.setList k p).slabs = c.slabs := by
  cases k <;> rfl

/-- Every slab is on the list of its kind, but for one that is held. -/
structure Lists (c : Cache) (ls : Kind → List ℕ) (held : Option ℕ) : Prop where
  isList : ∀ k, IsList SlabNode.next c.slabs (c.list k) (ls k)
  nodup : ∀ k, (ls k).Nodup
  unique : ∀ k k' a, a ∈ ls k → a ∈ ls k' → k = k'
  mem : ∀ a s, c.slabs a = some s → held = some a ∨ a ∈ ls s.kind
  kind : ∀ k a s, a ∈ ls k → c.slabs a = some s → s.kind = k
  notHeld : ∀ a, held = some a → ∀ k, a ∉ ls k

/-- The number of slabs on the lists. -/
def count (ls : Kind → List ℕ) : ℕ := (ls .full).length + (ls .part).length + (ls .empty).length

theorem length_le_count (ls : Kind → List ℕ) (k : Kind) : (ls k).length ≤ count ls := by
  unfold count
  cases k <;> omega

theorem count_update (ls : Kind → List ℕ) (k : Kind) (l : List ℕ) :
    count (Function.update ls k l) + (ls k).length = count ls + l.length := by
  unfold count
  cases k <;> simp <;> omega

/-- The first slab is taken off its list. -/
theorem Lists.take (h : Lists c ls none) {l : List ℕ} (hk : ls k = a :: l) (hs : c.slabs a = some s) :
    Lists (c.setList k s.next) (Function.update ls k l) (some a) := by
  have hsub : ∀ k', ∀ b ∈ Function.update ls k l k', b ∈ ls k' := by
    intro k' b hb
    by_cases hkk : k' = k
    · subst hkk
      rw [Function.update_self] at hb
      rw [hk]
      exact List.mem_cons_of_mem _ hb
    · rwa [Function.update_of_ne hkk] at hb
  have hnodup : (a :: l).Nodup := hk ▸ h.nodup k
  refine ⟨fun k' => ?_, fun k' => ?_, fun k1 k2 b h1 h2 => ?_, fun b t hb => ?_,
    fun k' b t hb ht => ?_, fun b hb k' hmem => ?_⟩
  · rw [slabs_setList]
    by_cases hkk : k' = k
    · subst hkk
      have hl := h.isList k'
      rw [hk] at hl
      obtain ⟨-, s', hs', hl⟩ := hl
      obtain rfl : s = s' := Option.some.inj (hs.symm.trans hs')
      rwa [list_setList_self, Function.update_self]
    · rw [list_setList_of_ne c hkk, Function.update_of_ne hkk]
      exact h.isList k'
  · by_cases hkk : k' = k
    · subst hkk
      rw [Function.update_self]
      exact (List.nodup_cons.mp hnodup).2
    · rw [Function.update_of_ne hkk]
      exact h.nodup k'
  · exact h.unique k1 k2 b (hsub k1 b h1) (hsub k2 b h2)
  · rw [slabs_setList] at hb
    have hmem := (h.mem b t hb).resolve_left (by simp)
    by_cases hba : b = a
    · exact Or.inl (by rw [hba])
    · right
      by_cases hkk : t.kind = k
      · rw [hkk, hk] at hmem
        rw [hkk, Function.update_self]
        exact (List.mem_cons.mp hmem).resolve_left hba
      · rwa [Function.update_of_ne hkk]
  · rw [slabs_setList] at ht
    exact h.kind k' b t (hsub k' b hb) ht
  · obtain rfl := Option.some.inj hb
    have hak : a ∈ ls k := by rw [hk]; exact List.mem_cons_self
    obtain rfl := h.unique k' k a (hsub k' a hmem) hak
    rw [Function.update_self] at hmem
    exact (List.nodup_cons.mp hnodup).1 hmem

theorem Lists.put (h : Lists c ls (some a)) (hkind : s.kind = k) :
    Lists { c.setList k (some a) with
        slabs := Function.update c.slabs a (some { s with next := c.list k }) }
      (Function.update ls k (a :: ls k)) none := by
  have hnot := h.notHeld a rfl
  have hmem : ∀ k', ∀ b ∈ Function.update ls k (a :: ls k) k', (b = a ∧ k' = k) ∨ (b ≠ a ∧ b ∈ ls k') := by
    intro k' b hb
    by_cases hkk : k' = k
    · subst hkk
      rw [Function.update_self] at hb
      rcases List.mem_cons.mp hb with rfl | hb
      · exact Or.inl ⟨rfl, rfl⟩
      · exact Or.inr ⟨ne_of_mem_of_not_mem hb (hnot k'), hb⟩
    · rw [Function.update_of_ne hkk] at hb
      exact Or.inr ⟨ne_of_mem_of_not_mem hb (hnot k'), hb⟩
  have hlist (k' : Kind) (slabs : ℕ → Option SlabNode) :
      Cache.list { c.setList k (some a) with slabs := slabs } k' = (c.setList k (some a)).list k' := by
    cases k' <;> rfl
  refine ⟨fun k' => ?_, fun k' => ?_, fun k1 k2 b h1 h2 => ?_, fun b t hb => ?_,
    fun k' b t hb ht => ?_, fun b hb => by cases hb⟩
  · rw [hlist]
    by_cases hkk : k' = k
    · subst hkk
      rw [list_setList_self, Function.update_self]
      exact (h.isList k').cons (hnot k') rfl
    · rw [list_setList_of_ne c hkk, Function.update_of_ne hkk]
      exact (h.isList k').update (hnot k') _
  · by_cases hkk : k' = k
    · subst hkk
      rw [Function.update_self, List.nodup_cons]
      exact ⟨hnot k', h.nodup k'⟩
    · rw [Function.update_of_ne hkk]
      exact h.nodup k'
  · rcases hmem k1 b h1 with ⟨hb1, rfl⟩ | ⟨hb1, hb1'⟩ <;> rcases hmem k2 b h2 with ⟨hb2, hk2⟩ | ⟨hb2, hb2'⟩
    · exact hk2.symm
    · exact absurd hb1 hb2
    · exact absurd hb2 hb1
    · exact h.unique k1 k2 b hb1' hb2'
  · right
    by_cases hba : b = a
    · subst hba
      simp only [Function.update_self, Option.some.injEq] at hb
      subst hb
      have : SlabNode.kind { s with next := c.list k } = k := hkind
      rw [this, Function.update_self]
      exact List.mem_cons_self
    · simp only [Function.update_of_ne hba] at hb
      have hold := (h.mem b t hb).resolve_left (by simpa using Ne.symm hba)
      by_cases hkk : t.kind = k
      · rw [hkk, Function.update_self, ← hkk]
        exact List.mem_cons_of_mem _ hold
      · rwa [Function.update_of_ne hkk]
  · rcases hmem k' b hb with ⟨rfl, rfl⟩ | ⟨hba, hb⟩
    · simp only [Function.update_self, Option.some.injEq] at ht
      subst ht
      exact hkind
    · simp only [Function.update_of_ne hba] at ht
      exact h.kind k' b t hb ht

theorem Lists.release (h : Lists c ls (some a)) :
    Lists { c with slabs := Function.update c.slabs a none } ls none := by
  have hnot := h.notHeld a rfl
  have hlist (k' : Kind) (slabs : ℕ → Option SlabNode) :
      Cache.list { c with slabs := slabs } k' = c.list k' := by
    cases k' <;> rfl
  refine ⟨fun k' => ?_, h.nodup, h.unique, fun b t hb => ?_, fun k' b t hb ht => ?_,
    fun b hb => by cases hb⟩
  · rw [hlist]
    exact (h.isList k').update (hnot k') none
  · by_cases hba : b = a
    · subst hba
      simp at hb
    · simp only [Function.update_of_ne hba] at hb
      exact Or.inr ((h.mem b t hb).resolve_left (by simpa using Ne.symm hba))
  · simp only [Function.update_of_ne (ne_of_mem_of_not_mem hb (hnot k'))] at ht
    exact h.kind k' b t hb ht

/-! ## Blocks -/

/-- The blocks of each slab are on its free list or in use; `live` are the blocks in use. -/
structure Blocks (c : Cache) (live : List ℕ) : Prop where
  blockSize_pos : 0 < c.blockSize
  blockSize_le : c.blockSize ≤ slabSize
  numBlocks : ∀ a s, c.slabs a = some s → s.numBlocks = slabSize / c.blockSize
  freeCount : ∀ a s, c.slabs a = some s → s.freeCount = s.freeList.length
  perm : ∀ a s, c.slabs a = some s →
    (s.freeList ++ live.filter s.holds).Perm (blockList s.memBase c.blockSize)
  disjoint : ∀ a b s t p, c.slabs a = some s → c.slabs b = some t → s.holds p = true →
    t.holds p = true → a = b
  cover : ∀ p ∈ live, ∃ a s, c.slabs a = some s ∧ s.holds p = true
  nodup : live.Nodup
  active : c.activeObjects = live.length

variable {live : List ℕ} {c' : Cache}

theorem length_blockList (base size : ℕ) : (blockList base size).length = slabSize / size := by
  simp [blockList]

theorem nodup_blockList (base : ℕ) {size : ℕ} (h : 0 < size) : (blockList base size).Nodup := by
  rw [blockList, List.nodup_reverse]
  refine List.nodup_range.map fun i j hij => ?_
  have : i * size = j * size := by simpa using hij
  exact Nat.eq_of_mul_eq_mul_right h this

theorem holds_of_mem_blockList {size p : ℕ} (hsize : 0 < size)
    (hp : p ∈ blockList s.memBase size) : s.holds p = true := by
  rw [blockList, List.mem_reverse, List.mem_map] at hp
  obtain ⟨i, hi, rfl⟩ := hp
  rw [List.mem_range, Nat.lt_div_iff_mul_lt hsize] at hi
  simp only [SlabNode.holds, Bool.and_eq_true, decide_eq_true_eq]
  omega

theorem Blocks.numBlocks_pos (h : Blocks c live) (hs : c.slabs a = some s) : 0 < s.numBlocks := by
  rw [h.numBlocks a s hs]
  exact Nat.div_pos h.blockSize_le h.blockSize_pos

theorem Blocks.count_eq (h : Blocks c live) (hs : c.slabs a = some s) :
    s.freeCount + (live.filter s.holds).length = s.numBlocks := by
  have hlen := (h.perm a s hs).length_eq
  rw [List.length_append, length_blockList] at hlen
  rw [h.freeCount a s hs, h.numBlocks a s hs, hlen]

theorem Blocks.kind_eq (h : Blocks c live) (hs : c.slabs a = some s) :
    s.kind = Kind.of (live.filter s.holds).length s.numBlocks := by
  have hcount := h.count_eq hs
  have hpos := h.numBlocks_pos hs
  unfold SlabNode.kind Kind.of
  split_ifs <;> first | rfl | omega

/-- The links of the slabs do not matter. -/
theorem Blocks.setList (h : Blocks c live) (k : Kind) (p : Option ℕ) : Blocks (c.setList k p) live := by
  cases k <;> exact ⟨h.blockSize_pos, h.blockSize_le, h.numBlocks, h.freeCount, h.perm, h.disjoint,
    h.cover, h.nodup, h.active⟩

/-- A slab whose pages are those of the slab that was there. -/
theorem Blocks.disjoint_update (h : Blocks c live) (hs : c.slabs a = some s) {s' : SlabNode}
    (hbase : s'.memBase = s.memBase) (b1 b2 : ℕ) (t1 t2 : SlabNode) (p : ℕ)
    (h1 : Function.update c.slabs a (some s') b1 = some t1)
    (h2 : Function.update c.slabs a (some s') b2 = some t2) (hp1 : t1.holds p = true)
    (hp2 : t2.holds p = true) : b1 = b2 := by
  have hold (b : ℕ) (t : SlabNode) (hb : Function.update c.slabs a (some s') b = some t)
      (hp : t.holds p = true) : ∃ t', c.slabs b = some t' ∧ t'.holds p = true := by
    by_cases hba : b = a
    · subst hba
      rw [Function.update_self, Option.some.injEq] at hb
      subst hb
      refine ⟨s, hs, ?_⟩
      rwa [SlabNode.holds, hbase] at hp
    · rw [Function.update_of_ne hba] at hb
      exact ⟨t, hb, hp⟩
  obtain ⟨u1, hu1, hp1⟩ := hold b1 t1 h1 hp1
  obtain ⟨u2, hu2, hp2⟩ := hold b2 t2 h2 hp2
  exact h.disjoint b1 b2 u1 u2 p hu1 hu2 hp1 hp2

theorem Blocks.change (h : Blocks c live) (hs : c.slabs a = some s) {s' : SlabNode} {live' : List ℕ}
    (hsize : c'.blockSize = c.blockSize) (hslabs : c'.slabs = Function.update c.slabs a (some s'))
    (hbase : s'.memBase = s.memBase) (hnum : s'.numBlocks = s.numBlocks)
    (hcount : s'.freeCount = s'.freeList.length)
    (hperm : (s'.freeList ++ live'.filter s'.holds).Perm (s.freeList ++ live.filter s.holds))
    (hother : ∀ b t, b ≠ a → c.slabs b = some t → live'.filter t.holds = live.filter t.holds)
    (hcover : ∀ p ∈ live', p ∈ live ∨ s.holds p = true) (hnodup : live'.Nodup)
    (hactive : c'.activeObjects = live'.length) : Blocks c' live' := by
  have hlook (b : ℕ) (t : SlabNode) (hb : c'.slabs b = some t) :
      (b = a ∧ t = s') ∨ (b ≠ a ∧ c.slabs b = some t) := by
    rw [hslabs] at hb
    by_cases hba : b = a
    · subst hba
      rw [Function.update_self, Option.some.injEq] at hb
      exact Or.inl ⟨rfl, hb.symm⟩
    · rw [Function.update_of_ne hba] at hb
      exact Or.inr ⟨hba, hb⟩
  have hholds (q : ℕ) : s'.holds q = s.holds q := by rw [SlabNode.holds, SlabNode.holds, hbase]
  refine ⟨hsize ▸ h.blockSize_pos, hsize ▸ h.blockSize_le, fun b t hb => ?_, fun b t hb => ?_,
    fun b t hb => ?_, ?_, fun p hp => ?_, hnodup, hactive⟩
  · rw [hsize]
    rcases hlook b t hb with ⟨rfl, rfl⟩ | ⟨-, hb⟩
    · rw [hnum]
      exact h.numBlocks b s hs
    · exact h.numBlocks b t hb
  · rcases hlook b t hb with ⟨rfl, rfl⟩ | ⟨-, hb⟩
    · exact hcount
    · exact h.freeCount b t hb
  · rw [hsize]
    rcases hlook b t hb with ⟨rfl, rfl⟩ | ⟨hba, hb⟩
    · rw [hbase]
      exact hperm.trans (h.perm b s hs)
    · rw [hother b t hba hb]
      exact h.perm b t hb
  · rw [hslabs]
    exact h.disjoint_update hs hbase
  · have hnew : c'.slabs a = some s' := by rw [hslabs, Function.update_self]
    rcases hcover p hp with hp | hp
    · obtain ⟨b, t, hb, ht⟩ := h.cover p hp
      by_cases hba : b = a
      · subst hba
        obtain rfl := Option.some.inj (hs.symm.trans hb)
        exact ⟨b, s', hnew, (hholds p).trans ht⟩
      · exact ⟨b, t, by rw [hslabs, Function.update_of_ne hba, hb], ht⟩
    · exact ⟨a, s', hnew, (hholds p).trans hp⟩

theorem Blocks.notMem_live (h : Blocks c live) (hs : c.slabs a = some s) {p : ℕ}
    (hp : p ∈ s.freeList) : p ∉ live ∧ s.holds p = true := by
  have hperm := h.perm a s hs
  have hholds : s.holds p = true :=
    holds_of_mem_blockList h.blockSize_pos (hperm.mem_iff.mp (List.mem_append_left _ hp))
  refine ⟨fun hlive => ?_, hholds⟩
  have hnodup := hperm.nodup_iff.mpr (nodup_blockList s.memBase h.blockSize_pos)
  exact (List.nodup_append.mp hnodup).2.2 p hp p (List.mem_filter.mpr ⟨hlive, hholds⟩) rfl

theorem Blocks.pop (h : Blocks c live) (hs : c.slabs a = some s) {p : ℕ} {rest : List ℕ}
    (hlist : s.freeList = p :: rest) {next : Option ℕ} (hsize : c'.blockSize = c.blockSize)
    (hslabs : c'.slabs = Function.update c.slabs a
      (some { s with freeList := rest, freeCount := s.freeCount - 1, next := next }))
    (hactive : c'.activeObjects = c.activeObjects + 1) : Blocks c' (p :: live) := by
  obtain ⟨hnot, hholds⟩ := h.notMem_live hs (p := p) (by rw [hlist]; exact List.mem_cons_self)
  refine h.change hs hsize hslabs rfl rfl ?_ ?_ ?_ ?_ ?_ ?_
  · have := h.freeCount a s hs
    rw [hlist, List.length_cons] at this
    dsimp only
    omega
  · have hfilter : (p :: live).filter s.holds = p :: live.filter s.holds :=
      List.filter_cons_of_pos hholds
    change (rest ++ (p :: live).filter s.holds).Perm _
    rw [hfilter, hlist]
    exact List.perm_middle
  · intro b t hba hb
    refine List.filter_cons_of_neg fun ht => hba ?_
    exact h.disjoint b a t s p hb hs ht hholds
  · intro q hq
    rcases List.mem_cons.mp hq with rfl | hq
    · exact Or.inr hholds
    · exact Or.inl hq
  · exact List.nodup_cons.mpr ⟨hnot, h.nodup⟩
  · rw [hactive, h.active, List.length_cons]

/-- A block in use goes back to its slab. -/
theorem Blocks.push (h : Blocks c live) (hs : c.slabs a = some s) {p : ℕ} (hp : p ∈ live)
    (hholds : s.holds p = true) {next : Option ℕ} (hsize : c'.blockSize = c.blockSize)
    (hslabs : c'.slabs = Function.update c.slabs a
      (some { s with freeList := p :: s.freeList, freeCount := s.freeCount + 1, next := next }))
    (hactive : c'.activeObjects = c.activeObjects - 1) : Blocks c' (live.erase p) := by
  refine h.change hs hsize hslabs rfl rfl ?_ ?_ ?_ ?_ ?_ ?_
  · dsimp only
    rw [List.length_cons, h.freeCount a s hs]
  · have hfilter : (live.erase p).filter s.holds = (live.filter s.holds).erase p :=
      List.erase_filter.symm
    have hmem : p ∈ live.filter s.holds := List.mem_filter.mpr ⟨hp, hholds⟩
    change (p :: s.freeList ++ (live.erase p).filter s.holds).Perm _
    rw [hfilter]
    exact (List.perm_middle.symm).trans ((List.perm_cons_erase hmem).symm.append_left s.freeList)
  · intro b t hba hb
    have hnot : p ∉ live.filter t.holds := by
      intro hmem
      exact hba (h.disjoint b a t s p hb hs (List.mem_filter.mp hmem).2 hholds)
    rw [← List.erase_filter, List.erase_of_not_mem hnot]
  · exact fun q hq => Or.inl (List.mem_of_mem_erase hq)
  · exact h.nodup.erase p
  · rw [hactive, h.active, List.length_erase_of_mem hp]

/-! ## Operations -/

theorem Lists.head_eq (h : Lists c ls none) {l : List ℕ} (hk : ls k = a :: l) :
    c.list k = some a ∧ ∃ s, c.slabs a = some s := by
  have hl := h.isList k
  rw [hk] at hl
  obtain ⟨hp, s, hs, -⟩ := hl
  exact ⟨hp, s, hs⟩

theorem Lists.eq_cons (h : Lists c ls none) (hk : c.list k = some a) :
    ∃ s l, ls k = a :: l ∧ c.slabs a = some s := by
  have hl := h.isList k
  rw [hk, isList_some] at hl
  obtain ⟨s, l, heq, hs, -⟩ := hl
  exact ⟨s, l, heq, hs⟩

theorem Lists.head_none (h : Lists c ls none) (hk : ls k = []) : c.list k = none := by
  have hl := h.isList k
  rw [hk] at hl
  exact hl

/-- The first slab of one list is not that of another. -/
theorem Lists.head_ne (h : Lists c ls none) (k' : Kind) (hne : k' ≠ k) (hk : c.list k = some a) :
    c.list k' ≠ some a := by
  intro hk'
  obtain ⟨-, l, heq, -⟩ := h.eq_cons hk
  obtain ⟨-, l', heq', -⟩ := h.eq_cons hk'
  refine hne (h.unique k' k a ?_ ?_)
  · rw [heq']
    exact List.mem_cons_self
  · rw [heq]
    exact List.mem_cons_self

/-- The addresses that the allocators return are not in use. -/
def Fresh (c : Cache) (page slab : ℕ) : Prop :=
  c.slabs slab = none ∧
    ∀ a s p, c.slabs a = some s → s.holds p = true → ¬ (page ≤ p ∧ p < page + slabSize)

def newSlab (c : Cache) (page : ℕ) : SlabNode :=
  { next := c.freeList
    memBase := page
    numBlocks := slabSize / c.blockSize
    freeCount := slabSize / c.blockSize
    freeList := blockList page c.blockSize }

theorem slabs_slabAddPage (c : Cache) (page slab : ℕ) :
    (slabAddPage c page slab).slabs = Function.update c.slabs slab (some (newSlab c page)) := rfl

theorem Blocks.addPage (h : Blocks c live) {page slab : ℕ} (hfresh : Fresh c page slab) :
    Blocks (slabAddPage c page slab) live := by
  obtain ⟨hnone, hdisj⟩ := hfresh
  have hnew (p : ℕ) : (newSlab c page).holds p = true ↔ page ≤ p ∧ p < page + slabSize := by
    rw [SlabNode.holds, Bool.and_eq_true, decide_eq_true_eq, decide_eq_true_eq]
    rfl
  have hlook (b : ℕ) (t : SlabNode) (hb : (slabAddPage c page slab).slabs b = some t) :
      (b = slab ∧ t = newSlab c page) ∨ (b ≠ slab ∧ c.slabs b = some t) := by
    rw [slabs_slabAddPage] at hb
    by_cases hbs : b = slab
    · subst hbs
      rw [Function.update_self, Option.some.injEq] at hb
      exact Or.inl ⟨rfl, hb.symm⟩
    · rw [Function.update_of_ne hbs] at hb
      exact Or.inr ⟨hbs, hb⟩
  refine ⟨h.blockSize_pos, h.blockSize_le, fun b t hb => ?_, fun b t hb => ?_, fun b t hb => ?_,
    fun a b s t p ha hb hs ht => ?_, fun p hp => ?_, h.nodup, h.active⟩
  · rcases hlook b t hb with ⟨-, rfl⟩ | ⟨-, hb⟩
    · rfl
    · exact h.numBlocks b t hb
  · rcases hlook b t hb with ⟨-, rfl⟩ | ⟨-, hb⟩
    · exact (length_blockList page c.blockSize).symm
    · exact h.freeCount b t hb
  · rcases hlook b t hb with ⟨-, rfl⟩ | ⟨-, hb⟩
    · have hnil : live.filter (newSlab c page).holds = [] := by
        rw [List.filter_eq_nil_iff]
        intro p hp hold
        obtain ⟨b, t, hb, ht⟩ := h.cover p hp
        exact hdisj b t p hb ht ((hnew p).mp hold)
      rw [hnil, List.append_nil]
      exact List.Perm.refl _
    · exact h.perm b t hb
  · rcases hlook a s ha with ⟨ha', rfl⟩ | ⟨-, ha'⟩ <;> rcases hlook b t hb with ⟨hb', rfl⟩ | ⟨-, hb'⟩
    · rw [ha', hb']
    · exact absurd ((hnew p).mp hs) (hdisj b t p hb' ht)
    · exact absurd ((hnew p).mp ht) (hdisj a s p ha' hs)
    · exact h.disjoint a b s t p ha' hb' hs ht
  · obtain ⟨b, t, hb, ht⟩ := h.cover p hp
    have hbs : b ≠ slab := by
      rintro rfl
      rw [hnone] at hb
      cases hb
    exact ⟨b, t, by rw [slabs_slabAddPage, Function.update_of_ne hbs, hb], ht⟩

theorem Lists.addPage (h : Lists c ls none) {page slab : ℕ} (hfresh : Fresh c page slab) :
    Lists { c with
      slabs := Function.update c.slabs slab (some (newSlab c page))
      totalObjects := c.totalObjects + slabSize / c.blockSize } ls (some slab) := by
  have hnot (k : Kind) : slab ∉ ls k := by
    intro hmem
    obtain ⟨s, hs⟩ := (h.isList k).isSome hmem
    rw [hfresh.1] at hs
    cases hs
  refine ⟨fun k => ?_, h.nodup, h.unique, fun b t hb => ?_, fun k b t hb ht => ?_, fun b hb k => ?_⟩
  · have hl := (h.isList k).update (hnot k) (some (newSlab c page))
    cases k <;> exact hl
  · by_cases hbs : b = slab
    · exact Or.inl (by rw [hbs])
    · simp only [Function.update_of_ne hbs] at hb
      exact Or.inr ((h.mem b t hb).resolve_left (by simp))
  · simp only [Function.update_of_ne (ne_of_mem_of_not_mem hb (hnot k))] at ht
    exact h.kind k b t hb ht
  · obtain rfl := Option.some.inj hb
    exact hnot k

/-- The slab of a new page is put on the list of free slabs. -/
theorem Lists.slabAddPage (h : Lists c ls none) (hb : Blocks c live) {page slab : ℕ}
    (hfresh : Fresh c page slab) :
    Lists (slabAddPage c page slab) (Function.update ls .empty (slab :: ls .empty)) none := by
  have hkind : (newSlab c page).kind = .empty := by
    have hpos : 0 < slabSize / c.blockSize := Nat.div_pos hb.blockSize_le hb.blockSize_pos
    unfold SlabNode.kind newSlab
    dsimp only
    rw [if_neg hpos.ne', if_pos rfl]
  have hput := (h.addPage hfresh).put hkind
  rw [Function.update_idem] at hput
  exact ⟨fun k => by have := hput.isList k; cases k <;> exact this, hput.nodup, hput.unique,
    hput.mem, hput.kind, hput.notHeld⟩

theorem count_take {l : List ℕ} (hk : ls k = a :: l) : count (Function.update ls k l) ≤ count ls := by
  have := count_update ls k l
  rw [hk, List.length_cons] at this
  omega

theorem takeSlab_spec (hl : Lists c ls none) (hb : Blocks c live) {page slab : ℕ}
    (hfresh : Fresh c page slab) :
    ∃ a s c' ls', takeSlab c page slab = some (a, s, c') ∧ Lists c' ls' (some a) ∧
      Blocks c' live ∧ c'.slabs a = some s ∧ 0 < s.freeCount ∧ count ls' ≤ count ls := by
  cases hpart : ls .part with
  | cons a l =>
    obtain ⟨hhead, s, hs⟩ := hl.head_eq hpart
    have hne : c.freeList ≠ some a := hl.head_ne .empty (by decide) hhead
    have hkind := hl.kind .part a s (by rw [hpart]; exact List.mem_cons_self) hs
    have hp : c.partialList = some a := hhead
    refine ⟨a, s, c.setList .part s.next, _, ?_, hl.take hpart hs, hb.setList _ _, hs, ?_,
      count_take hpart⟩
    · have hor : c.partialList.or c.freeList = some a := by rw [hp, Option.some_or]
      unfold takeSlab
      rw [hor]
      dsimp only
      rw [hs, Option.map_some, if_neg hne, if_pos hp]
      rfl
    · unfold SlabNode.kind at hkind
      split_ifs at hkind with h0
      omega
  | nil =>
    have hp : c.partialList = none := hl.head_none hpart
    cases hempty : ls .empty with
    | cons a l =>
      obtain ⟨hhead, s, hs⟩ := hl.head_eq hempty
      have hf : c.freeList = some a := hhead
      have hkind := hl.kind .empty a s (by rw [hempty]; exact List.mem_cons_self) hs
      refine ⟨a, s, c.setList .empty s.next, _, ?_, hl.take hempty hs, hb.setList _ _, hs, ?_,
        count_take hempty⟩
      · have hor : c.partialList.or c.freeList = some a := by rw [hp, Option.none_or, hf]
        have hne : c.partialList ≠ some a := by simp [hp]
        unfold takeSlab
        rw [hor]
        dsimp only
        rw [hs, Option.map_some, if_pos hf, if_neg hne]
        rfl
      · have hpos := hb.numBlocks_pos hs
        unfold SlabNode.kind at hkind
        split_ifs at hkind
        omega
    | nil =>
      have hf : c.freeList = none := hl.head_none hempty
      have hpages := hb.addPage hfresh
      refine ⟨slab, newSlab c page, _, ls, ?_, hl.addPage hfresh, ?_, Function.update_self _ _ _, ?_,
        le_rfl⟩
      · have hor : c.partialList.or c.freeList = none := by rw [hp, Option.none_or, hf]
        unfold takeSlab
        rw [hor]
        simp only [slabAddPage, Option.bind_some, Function.update_self, Option.map_some]
        rfl
      · exact ⟨hpages.blockSize_pos, hpages.blockSize_le, hpages.numBlocks, hpages.freeCount,
          hpages.perm, hpages.disjoint, hpages.cover, hpages.nodup, hpages.active⟩
      · exact Nat.div_pos hb.blockSize_le hb.blockSize_pos

theorem count_put (ls : Kind → List ℕ) (k : Kind) (a : ℕ) :
    count (Function.update ls k (a :: ls k)) = count ls + 1 := by
  have := count_update ls k (a :: ls k)
  rw [List.length_cons] at this
  omega

/-- The slab held is put on its list after its first free block is handed out. -/
theorem pop_put (hl : Lists c ls (some a)) (hb : Blocks c live) (hs : c.slabs a = some s) {p : ℕ}
    {rest : List ℕ} (hlist : s.freeList = p :: rest)
    (hkind : SlabNode.kind { s with freeList := rest, freeCount := s.freeCount - 1 } = k) :
    let c' := { c.setList k (some a) with
      slabs := Function.update c.slabs a
        (some { s with freeList := rest, freeCount := s.freeCount - 1, next := c.list k })
      activeObjects := c.activeObjects + 1 }
    Lists c' (Function.update ls k (a :: ls k)) none ∧ Blocks c' (p :: live) := by
  intro c'
  have hput := hl.put hkind
  refine ⟨⟨fun k' => ?_, hput.nodup, hput.unique, hput.mem, hput.kind, hput.notHeld⟩, ?_⟩
  · have hlist' := hput.isList k'
    cases k' <;> exact hlist'
  · refine hb.pop hs hlist ?_ rfl rfl
    cases k <;> rfl

/-- An allocation hands out a block that is not in use. -/
theorem cacheAlloc_spec (hl : Lists c ls none) (hb : Blocks c live) {page slab : ℕ}
    (hfresh : Fresh c page slab) :
    ∃ p c' ls', cacheAlloc c page slab = some (some p, c') ∧ Lists c' ls' none ∧
      Blocks c' (p :: live) ∧ count ls' ≤ count ls + 1 := by
  obtain ⟨a, s, c1, ls1, htake, hl1, hb1, hs, hpos, hcount⟩ := takeSlab_spec hl hb hfresh
  have hfree := hb1.freeCount a s hs
  have hadd := hb1.count_eq hs
  obtain ⟨p, rest, hlist⟩ : ∃ p rest, s.freeList = p :: rest := by
    cases hlist : s.freeList with
    | nil =>
      rw [hlist, List.length_nil] at hfree
      omega
    | cons p rest => exact ⟨p, rest, rfl⟩
  have hcount' (k : Kind) : count (Function.update ls1 k (a :: ls1 k)) ≤ count ls + 1 := by
    rw [count_put]
    omega
  unfold cacheAlloc
  rw [htake, Option.map_some]
  dsimp only
  rw [hlist]
  dsimp only
  by_cases hzero : s.freeCount - 1 = 0
  · rw [if_pos hzero]
    have hkind : SlabNode.kind { s with freeList := rest, freeCount := s.freeCount - 1 } = .full :=
      if_pos hzero
    obtain ⟨hl2, hb2⟩ := pop_put hl1 hb1 hs hlist hkind
    exact ⟨p, _, _, rfl, hl2, hb2, hcount' .full⟩
  · rw [if_neg hzero]
    have hkind : SlabNode.kind { s with freeList := rest, freeCount := s.freeCount - 1 } = .part := by
      unfold SlabNode.kind
      dsimp only
      rw [if_neg hzero, if_neg (by omega)]
    obtain ⟨hl2, hb2⟩ := pop_put hl1 hb1 hs hlist hkind
    exact ⟨p, _, _, rfl, hl2, hb2, hcount' .part⟩

/-- The slab held is put on its list after a block of it came back. -/
theorem push_put (hl : Lists c ls (some a)) (hb : Blocks c live) (hs : c.slabs a = some s) {p : ℕ}
    (hp : p ∈ live) (hholds : s.holds p = true)
    (hkind : SlabNode.kind { s with freeList := p :: s.freeList, freeCount := s.freeCount + 1 } = k) :
    let c' := { c.setList k (some a) with
      slabs := Function.update c.slabs a
        (some { s with freeList := p :: s.freeList, freeCount := s.freeCount + 1, next := c.list k })
      activeObjects := c.activeObjects - 1 }
    Lists c' (Function.update ls k (a :: ls k)) none ∧ Blocks c' (live.erase p) := by
  intro c'
  have hput := hl.put hkind
  refine ⟨⟨fun k' => ?_, hput.nodup, hput.unique, hput.mem, hput.kind, hput.notHeld⟩, ?_⟩
  · have hlist' := hput.isList k'
    cases k' <;> exact hlist'
  · refine hb.push hs hp hholds ?_ rfl rfl
    cases k <;> rfl

/-- The search finds the one slab whose pages hold the pointer, if it is on the list. -/
theorem find_holder (hl : Lists c ls none) (hb : Blocks c live) (hs : c.slabs a = some s) {p fuel : ℕ}
    (hholds : s.holds p = true) (k : Kind) (hfuel : count ls < fuel) :
    find SlabNode.next c.slabs (·.holds p) fuel (c.list k) =
      some (if a ∈ ls k then some a else none) := by
  rw [find_eq (hl.isList k) ((length_le_count ls k).trans_lt hfuel)]
  congr 1
  have hiff (b : ℕ) : (c.slabs b).any (·.holds p) = true ↔ b = a := by
    constructor
    · intro hb'
      cases ht : c.slabs b with
      | none =>
        rw [ht] at hb'
        cases hb'
      | some t =>
        rw [ht] at hb'
        exact hb.disjoint b a t s p ht hs hb' hholds
    · rintro rfl
      rw [hs]
      exact hholds
  split
  · rename_i hmem
    cases hfind : (ls k).find? fun b => (c.slabs b).any (·.holds p) with
    | none =>
      rw [List.find?_eq_none] at hfind
      exact absurd ((hiff a).mpr rfl) (hfind a hmem)
    | some b =>
      have hany := List.find?_some (p := fun b => (c.slabs b).any (·.holds p)) hfind
      rw [(hiff b).mp hany]
  · rename_i hmem
    rw [List.find?_eq_none]
    intro b hbk hb'
    exact hmem ((hiff b).mp hb' ▸ hbk)

/-- The slab of a pointer is the first of its list. -/
def AtHead (c : Cache) (ptr : ℕ) : Prop :=
  ∀ a s, c.slabs a = some s → s.holds ptr = true → c.fullList = some a ∨ c.partialList = some a

/-- A free of a block in use whose slab is the first of its list. -/
theorem cacheFree_spec (hl : Lists c ls none) (hb : Blocks c live) {p fuel : ℕ} (hp : p ∈ live)
    (hhead : AtHead c p) (hfuel : count ls < fuel) :
    ∃ c' ls', cacheFree fuel c p = some c' ∧ Lists c' ls' none ∧ Blocks c' (live.erase p) ∧
      count ls' ≤ count ls := by
  obtain ⟨a, s, hs, hholds⟩ := hb.cover p hp
  have hadd := hb.count_eq hs
  have hused : 0 < (live.filter s.holds).length :=
    List.length_pos_of_mem (List.mem_filter.mpr ⟨hp, hholds⟩)
  have hmem : a ∈ ls s.kind := (hl.mem a s hs).resolve_left (by simp)
  obtain ⟨hk, hkk⟩ : c.list s.kind = some a ∧ (s.kind = .full ∨ s.kind = .part) := by
    rcases hhead a s hs hholds with h | h
    · obtain ⟨-, l, heq, -⟩ := hl.eq_cons (k := .full) h
      have := hl.kind .full a s (by rw [heq]; exact List.mem_cons_self) hs
      exact ⟨this ▸ h, Or.inl this⟩
    · obtain ⟨-, l, heq, -⟩ := hl.eq_cons (k := .part) h
      have := hl.kind .part a s (by rw [heq]; exact List.mem_cons_self) hs
      exact ⟨this ▸ h, Or.inr this⟩
  obtain ⟨-, l, hls, -⟩ := hl.eq_cons hk
  have hl1 := hl.take hls hs
  have hb1 := hb.setList s.kind s.next
  have hfind : findSlab fuel c p = some (some a) := by
    have hfull := find_holder hl hb hs hholds .full hfuel
    have hpart := find_holder hl hb hs hholds .part hfuel
    unfold findSlab
    change (find _ _ _ _ (c.list .full)).bind _ = _
    rw [hfull, Option.bind_some]
    rcases hkk with h | h <;> rw [h] at hmem
    · rw [if_pos hmem]
    · have hnot : a ∉ ls .full := fun hfull => by cases hl.unique .full .part a hfull hmem
      rw [if_neg hnot]
      change find _ _ _ _ (c.list .part) = _
      rw [hpart, if_pos hmem]
  have hcount : count (Function.update ls s.kind l) + 1 = count ls := by
    have := count_update ls s.kind l
    rw [hls, List.length_cons] at this
    omega
  have hunlink : unlink c a s.next = c.setList s.kind s.next := by
    rcases hkk with h | h <;> rw [h] at hk ⊢
    · have hfull : c.fullList = some a := hk
      have hne : c.partialList ≠ some a := hl.head_ne .part (by decide) hk
      rw [unlink, if_pos hfull, if_neg hne]
      rfl
    · have hpart : c.partialList = some a := hk
      have hne : c.fullList ≠ some a := hl.head_ne .full (by decide) hk
      rw [unlink, if_neg hne, if_pos hpart]
      rfl
  have hs1 : (c.setList s.kind s.next).slabs a = some s := by rw [slabs_setList, hs]
  have hcount' (k : Kind) (ls1 : Kind → List ℕ) (h : count ls1 + 1 = count ls) :
      count (Function.update ls1 k (a :: ls1 k)) ≤ count ls := by
    rw [count_put]
    omega
  unfold cacheFree
  rw [hfind, Option.bind_some]
  dsimp only
  rw [hs, Option.map_some, hunlink]
  by_cases hall : s.freeCount + 1 = s.numBlocks
  · rw [if_pos hall]
    have hkind : SlabNode.kind { s with freeList := p :: s.freeList, freeCount := s.freeCount + 1 } =
        .empty := by
      unfold SlabNode.kind
      dsimp only
      rw [if_neg (Nat.succ_ne_zero _), if_pos hall]
    obtain ⟨hl2, hb2⟩ := push_put hl1 hb1 hs1 hp hholds hkind
    exact ⟨_, _, rfl, hl2, hb2, hcount' .empty _ hcount⟩
  · rw [if_neg hall]
    have hkind : SlabNode.kind { s with freeList := p :: s.freeList, freeCount := s.freeCount + 1 } =
        .part := by
      unfold SlabNode.kind
      dsimp only
      rw [if_neg (Nat.succ_ne_zero _), if_neg hall]
    obtain ⟨hl2, hb2⟩ := push_put hl1 hb1 hs1 hp hholds hkind
    exact ⟨_, _, rfl, hl2, hb2, hcount' .part _ hcount⟩

theorem Blocks.release (h : Blocks c live) (hs : c.slabs a = some s) (hfree : s.freeCount = s.numBlocks)
    (n : ℕ) : Blocks { c with slabs := Function.update c.slabs a none, totalObjects := n } live := by
  have hlook (b : ℕ) (t : SlabNode) (hb : Function.update c.slabs a none b = some t) :
      c.slabs b = some t := by
    by_cases hba : b = a
    · subst hba
      rw [Function.update_self] at hb
      cases hb
    · rwa [Function.update_of_ne hba] at hb
  refine ⟨h.blockSize_pos, h.blockSize_le, fun b t hb => h.numBlocks b t (hlook b t hb),
    fun b t hb => h.freeCount b t (hlook b t hb), fun b t hb => h.perm b t (hlook b t hb),
    fun b1 b2 t1 t2 p h1 h2 => h.disjoint b1 b2 t1 t2 p (hlook b1 t1 h1) (hlook b2 t2 h2),
    fun p hp => ?_, h.nodup, h.active⟩
  obtain ⟨b, t, hb, ht⟩ := h.cover p hp
  have hba : b ≠ a := by
    rintro rfl
    obtain rfl := Option.some.inj (hs.symm.trans hb)
    have hadd := h.count_eq hs
    have hused : 0 < (live.filter s.holds).length :=
      List.length_pos_of_mem (List.mem_filter.mpr ⟨hp, ht⟩)
    omega
  exact ⟨b, t, by simp only [Function.update_of_ne hba, hb], ht⟩

theorem gcLoop_spec {l : List ℕ} (hl : Lists c ls none) (hb : Blocks c live) (hempty : ls .empty = l)
    {fuel : ℕ} (hfuel : l.length < fuel) :
    ∃ c' ls', gcLoop fuel c none c.freeList = some c' ∧ Lists c' ls' none ∧ Blocks c' live ∧
      count ls' ≤ count ls := by
  induction l generalizing c ls fuel with
  | nil =>
    obtain ⟨fuel, rfl⟩ : ∃ n, fuel = n + 1 := ⟨fuel - 1, by simp at hfuel; omega⟩
    have hf : c.freeList = none := hl.head_none hempty
    exact ⟨c, ls, by rw [hf]; rfl, hl, hb, le_rfl⟩
  | cons a l ih =>
    obtain ⟨fuel, rfl⟩ : ∃ n, fuel = n + 1 := ⟨fuel - 1, by simp at hfuel; omega⟩
    obtain ⟨hf, s, hs⟩ := hl.head_eq hempty
    have hkind := hl.kind .empty a s (by rw [hempty]; exact List.mem_cons_self) hs
    have hfree : s.freeCount = s.numBlocks := by
      unfold SlabNode.kind at hkind
      split_ifs at hkind
      assumption
    have hl1 := (hl.take hempty hs).release
    have hb1 := hb.release hs hfree (c.totalObjects - s.numBlocks)
    set c1 : Cache := { c with
      freeList := s.next
      slabs := Function.update c.slabs a none
      totalObjects := c.totalObjects - s.numBlocks } with hc1
    have hl2 : Lists c1 (Function.update ls .empty l) none :=
      ⟨fun k => by have := hl1.isList k; cases k <;> exact this, hl1.nodup, hl1.unique, hl1.mem,
        hl1.kind, hl1.notHeld⟩
    have hb2 : Blocks c1 live :=
      ⟨hb1.blockSize_pos, hb1.blockSize_le, hb1.numBlocks, hb1.freeCount, hb1.perm, hb1.disjoint,
        hb1.cover, hb1.nodup, hb1.active⟩
    obtain ⟨c', ls', hloop, hl', hb', hcount⟩ :=
      ih hl2 hb2 (Function.update_self _ _ _) (Nat.lt_of_succ_lt_succ hfuel)
    refine ⟨c', ls', ?_, hl', hb', hcount.trans (count_take hempty)⟩
    have hf' : c.freeList = some a := hf
    rw [hf', gcLoop, hs, Option.bind_some, if_pos hfree]
    exact hloop

theorem blocks_of_no_slabs (hpos : 0 < c.blockSize) (hsize : c.blockSize ≤ slabSize)
    (hnone : ∀ a, c.slabs a = none) (hactive : c.activeObjects = 0) : Blocks c [] := by
  have habs {a : ℕ} {s : SlabNode} (hs : c.slabs a = some s) : False := by
    rw [hnone a] at hs
    cases hs
  exact {
    blockSize_pos := hpos
    blockSize_le := hsize
    numBlocks := fun _ _ hs => (habs hs).elim
    freeCount := fun _ _ hs => (habs hs).elim
    perm := fun _ _ hs => (habs hs).elim
    disjoint := fun _ _ _ _ _ hs => (habs hs).elim
    cover := fun _ hp => absurd hp List.not_mem_nil
    nodup := List.nodup_nil
    active := hactive }

theorem lists_of_no_slabs (hnone : ∀ a, c.slabs a = none) (hlist : ∀ k, c.list k = none) :
    Lists c (fun _ => []) none where
  isList := hlist
  nodup := fun _ => List.nodup_nil
  unique := fun _ _ _ ha => absurd ha List.not_mem_nil
  mem := fun a s hs => by
    rw [hnone a] at hs
    cases hs
  kind := fun _ _ _ ha => absurd ha List.not_mem_nil
  notHeld := fun _ _ _ => List.not_mem_nil

/-! ## Runs -/

/-- A call, with the addresses that the allocators would return in it. -/
inductive Op where
  | alloc (page slab : ℕ)
  | free (ptr : ℕ)
  | gc

/-- The cache and the blocks in use after a call. -/
def Op.step (fuel : ℕ) (c : Cache) (live : List ℕ) : Op → Option (Cache × List ℕ)
  | .alloc page slab => (cacheAlloc c page slab).map fun r => (r.2, r.1.toList ++ live)
  | .free ptr => (cacheFree fuel c ptr).map fun c => (c, live.erase ptr)
  | .gc => (cacheGc fuel c).map fun c => (c, live)

/-- The cache and the blocks in use after a sequence of calls. -/
def run (fuel : ℕ) : Cache → List ℕ → List Op → Option (Cache × List ℕ)
  | c, live, [] => some (c, live)
  | c, live, op :: ops => (op.step fuel c live).bind fun r => run fuel r.1 r.2 ops

/-- The allocators return fresh addresses, and a free returns a block in use. -/
def Op.Legal (c : Cache) (live : List ℕ) : Op → Prop
  | .alloc page slab => Fresh c page slab
  | .free ptr => ptr ∈ live
  | .gc => True

/-- A free returns a block whose slab is the first of its list. -/
def Op.Fits (c : Cache) : Op → Prop
  | .free ptr => AtHead c ptr
  | _ => True

/-- All calls of a run have a property, in the state in which they are made. -/
def Always (P : Cache → List ℕ → Op → Prop) (fuel : ℕ) : Cache → List ℕ → List Op → Prop
  | _, _, [] => True
  | c, live, op :: ops => P c live op ∧
    ∀ c' live', op.step fuel c live = some (c', live') → Always P fuel c' live' ops

/-- All calls of a run are legal. -/
def AllLegal : ℕ → Cache → List ℕ → List Op → Prop := Always fun c live op => op.Legal c live

/-- All frees of a run return blocks of first slabs. -/
def AllFit : ℕ → Cache → List ℕ → List Op → Prop := Always fun c _ op => op.Fits c

/-- Every slab is on exactly the list that its blocks in use call for, no block was handed out twice,
and the counter is right. -/
structure Good (c : Cache) (live : List ℕ) : Prop where
  lists : ∃ ls : Kind → List ℕ, (∀ k, IsList SlabNode.next c.slabs (c.list k) (ls k) ∧ (ls k).Nodup) ∧
    ∀ a s, c.slabs a = some s →
      ∀ k, a ∈ ls k ↔ k = Kind.of (live.filter s.holds).length s.numBlocks
  nodup : live.Nodup
  active : c.activeObjects = live.length

theorem good_of_lists (hl : Lists c ls none) (hb : Blocks c live) : Good c live where
  lists := by
    refine ⟨ls, fun k => ⟨hl.isList k, hl.nodup k⟩, fun a s hs k => ?_⟩
    have hmem := (hl.mem a s hs).resolve_left (by simp)
    rw [← hb.kind_eq hs]
    constructor
    · exact fun hk => (hl.kind k a s hk hs).symm
    · rintro rfl
      exact hmem
  nodup := hb.nodup
  active := hb.active

theorem step_spec (hl : Lists c ls none) (hb : Blocks c live) {fuel : ℕ} (hfuel : count ls < fuel)
    {op : Op} (hlegal : op.Legal c live) (hfit : op.Fits c) :
    ∃ c' live' ls', op.step fuel c live = some (c', live') ∧ Lists c' ls' none ∧ Blocks c' live' ∧
      count ls' ≤ count ls + 1 := by
  cases op with
  | alloc page slab =>
    obtain ⟨p, c', ls', halloc, hl', hb', hcount⟩ := cacheAlloc_spec hl hb hlegal
    exact ⟨c', p :: live, ls', by rw [Op.step, halloc]; rfl, hl', hb', hcount⟩
  | free ptr =>
    obtain ⟨c', ls', hfree, hl', hb', hcount⟩ := cacheFree_spec hl hb hlegal hfit hfuel
    exact ⟨c', live.erase ptr, ls', by rw [Op.step, hfree]; rfl, hl', hb', by omega⟩
  | gc =>
    have hlen := length_le_count ls .empty
    obtain ⟨c', ls', hgc, hl', hb', hcount⟩ := gcLoop_spec hl hb rfl (hlen.trans_lt hfuel)
    refine ⟨c', live, ls', ?_, hl', hb', by omega⟩
    rw [Op.step, cacheGc, hgc]
    rfl

theorem run_spec (hl : Lists c ls none) (hb : Blocks c live) {ops : List Op} {fuel : ℕ}
    (hfuel : count ls + ops.length < fuel) (hlegal : AllLegal fuel c live ops)
    (hfit : AllFit fuel c live ops) :
    ∃ c' live' ls', run fuel c live ops = some (c', live') ∧ Lists c' ls' none ∧ Blocks c' live' := by
  induction ops generalizing c live ls with
  | nil => exact ⟨c, live, ls, rfl, hl, hb⟩
  | cons op ops ih =>
    rw [List.length_cons] at hfuel
    obtain ⟨c1, live1, ls1, hstep, hl1, hb1, hcount⟩ :=
      step_spec hl hb (by omega : count ls < fuel) hlegal.1 hfit.1
    obtain ⟨c', live', ls', hrun, h'⟩ :=
      ih hl1 hb1 (by omega) (hlegal.2 c1 live1 hstep) (hfit.2 c1 live1 hstep)
    exact ⟨c', live', ls', by rw [run, hstep, Option.bind_some, hrun], h'⟩

end

/-- **Slabs on the right lists.** In every run from a new cache whose blocks fit into a slab, in which
each free returns a block in use whose slab is the first of its list, every call returns and every
slab is on the one list that matches its blocks in use. -/
theorem run_good {blockSize alignment : UInt64} {page slab : ℕ} {c : Cache} {ops : List Op} {fuel : ℕ}
    (hc : cacheCreate blockSize alignment page slab = some c) (hsize : c.blockSize ≤ slabSize)
    (hfuel : ops.length + 1 < fuel) (hlegal : AllLegal fuel c [] ops) (hfit : AllFit fuel c [] ops) :
    ∃ c' live, run fuel c [] ops = some (c', live) ∧ Good c' live := by
  unfold cacheCreate at hc
  dsimp only at hc
  split at hc
  · cases hc
  · rename_i hne
    obtain rfl := Option.some.inj hc
    set c0 : Cache :=
      { blockSize := (roundBlockSize blockSize alignment).toNat
        partialList := none
        fullList := none
        freeList := none
        activeObjects := 0
        totalObjects := 0
        slabs := fun _ => none } with hc0
    have hb : Blocks c0 [] := blocks_of_no_slabs (Nat.pos_of_ne_zero hne) hsize (fun _ => rfl) rfl
    have hl : Lists c0 (fun _ => []) none :=
      lists_of_no_slabs (fun _ => rfl) fun k => by cases k <;> rfl
    have hfresh : Fresh c0 page slab := ⟨rfl, fun a s p hs => by cases hs⟩
    obtain ⟨c', live, ls', hrun, hl', hb'⟩ := run_spec (hl.slabAddPage hb hfresh)
      (hb.addPage hfresh) (by rw [count_put]; simp only [count, List.length_nil]; omega)
      hlegal hfit
    exact ⟨c', live, hrun, good_of_lists hl' hb'⟩

/-! ## A slab in the middle of its list

Slabs of one block each, at the addresses 1, 3 and 4, with pages in this order. -/

/-- The slabs below address `n` have their pages in the order of their addresses. -/
def Ordered (c : Cache) (n : ℕ) : Prop :=
  ∀ a s, c.slabs a = some s → a < n ∧ s.memBase = a * slabSize

theorem Ordered.fresh {c : Cache} {n : ℕ} (h : Ordered c n) : Fresh c (n * slabSize) n := by
  constructor
  · cases hs : c.slabs n with
    | none => rfl
    | some s => exact absurd (h n s hs).1 (lt_irrefl n)
  · rintro a s p hs hp ⟨hge, -⟩
    obtain ⟨hlt, hbase⟩ := h a s hs
    simp only [SlabNode.holds, hbase, Bool.and_eq_true, decide_eq_true_eq] at hp
    have hle : (a + 1) * slabSize ≤ n * slabSize := Nat.mul_le_mul_right _ hlt
    rw [add_mul, one_mul] at hle
    omega

theorem Ordered.update {c : Cache} {n a : ℕ} {s : SlabNode} (h : Ordered c n) (ha : a < n)
    (hbase : s.memBase = a * slabSize) {c' : Cache}
    (hslabs : c'.slabs = Function.update c.slabs a (some s)) : Ordered c' n := by
  intro b t hb
  rw [hslabs] at hb
  by_cases hba : b = a
  · subst hba
    rw [Function.update_self, Option.some.injEq] at hb
    subst hb
    exact ⟨ha, hbase⟩
  · rw [Function.update_of_ne hba] at hb
    exact h b t hb

theorem Ordered.alloc {c c' : Cache} {n fuel : ℕ} {live live' : List ℕ} (h : Ordered c n)
    (hstep : (Op.alloc (n * slabSize) n).step fuel c live = some (c', live')) :
    Ordered c' (n + 1) := by
  have hmono {c : Cache} (h : Ordered c n) : Ordered c (n + 1) := fun a s hs =>
    ⟨(h a s hs).1.trans (Nat.lt_succ_self n), (h a s hs).2⟩
  -- the slab that is taken
  have htake (r : ℕ × SlabNode × Cache) (hr : takeSlab c (n * slabSize) n = some r) :
      Ordered r.2.2 (n + 1) ∧ r.2.2.slabs r.1 = some r.2.1 := by
    unfold takeSlab at hr
    split at hr
    · rename_i a _
      obtain ⟨s, hs, rfl⟩ := Option.map_eq_some_iff.mp hr
      dsimp only
      split_ifs <;> exact ⟨hmono h, hs⟩
    · simp only [slabAddPage, Option.bind_some, Function.update_self, Option.map_some] at hr
      obtain rfl := Option.some.inj hr
      exact ⟨(hmono h).update (Nat.lt_succ_self n) rfl rfl, Function.update_self _ _ _⟩
  unfold Op.step cacheAlloc at hstep
  obtain ⟨r, hr, hres⟩ := Option.map_eq_some_iff.mp hstep
  obtain ⟨⟨a, s, c1⟩, htk, rfl⟩ := Option.map_eq_some_iff.mp hr
  obtain ⟨hord, hs⟩ := htake _ htk
  obtain ⟨hlt, hbase⟩ := hord a s hs
  obtain ⟨rfl, -⟩ := Prod.mk.inj hres
  dsimp only
  split
  · exact hord
  · split
    · refine hord.update hlt ?_ rfl
      exact hbase
    · refine hord.update hlt ?_ rfl
      exact hbase

def largeBlocks : Cache := (cacheCreate 1048576 0 slabSize 1).getD
  ⟨0, none, none, none, 0, 0, fun _ => none⟩

theorem cacheCreate_largeBlocks : cacheCreate 1048576 0 slabSize 1 = some largeBlocks := rfl

def threeAllocs : List Op :=
  [.alloc (2 * slabSize) 2, .alloc (3 * slabSize) 3, .alloc (4 * slabSize) 4]

theorem ordered_largeBlocks : Ordered largeBlocks 2 := by
  intro a s hs
  by_cases ha : a = 1
  · subst ha
    obtain rfl := Option.some.inj hs
    exact ⟨Nat.one_lt_two, (Nat.one_mul _).symm⟩
  · have hnone : largeBlocks.slabs a = none := Function.update_of_ne ha _ _
    rw [hnone] at hs
    cases hs

theorem allLegal_threeAllocs {ptr : ℕ} (hptr : ptr ∈ [4 * slabSize, 3 * slabSize, slabSize]) :
    AllLegal 9 largeBlocks [] (threeAllocs ++ [.free ptr]) := by
  refine ⟨ordered_largeBlocks.fresh, fun c1 live1 h1 => ?_⟩
  have ho1 := ordered_largeBlocks.alloc h1
  refine ⟨ho1.fresh, fun c2 live2 h2 => ?_⟩
  have ho2 := ho1.alloc h2
  refine ⟨ho2.fresh, fun c3 live3 h3 => ?_⟩
  refine ⟨?_, fun _ _ _ => trivial⟩
  have hrun : run 9 largeBlocks [] threeAllocs = some (c3, live3) := by
    simp only [threeAllocs, run, h1, h2, h3, Option.bind_some]
  have hlive : (run 9 largeBlocks [] threeAllocs).map Prod.snd =
      some [4 * slabSize, 3 * slabSize, slabSize] := by
    decide +kernel
  rw [hrun, Option.map_some, Option.some.injEq] at hlive
  change ptr ∈ live3
  rw [show live3 = _ from hlive]
  exact hptr

/-- The block of the last slab, which is the first of the full ones, is freed. -/
theorem run_good_first :
    ∃ c' live, run 9 largeBlocks [] (threeAllocs ++ [.free (4 * slabSize)]) = some (c', live) ∧
      Good c' live := by
  refine run_good cacheCreate_largeBlocks (by decide) (by decide) (allLegal_threeAllocs (by simp)) ?_
  refine ⟨trivial, fun c1 live1 h1 => ⟨trivial, fun c2 live2 h2 => ⟨trivial, fun c3 live3 h3 =>
    ⟨?_, fun _ _ _ => trivial⟩⟩⟩⟩
  have hrun : run 9 largeBlocks [] threeAllocs = some (c3, live3) := by
    simp only [threeAllocs, run, h1, h2, h3, Option.bind_some]
  have hfull : (run 9 largeBlocks [] threeAllocs).map (fun r => r.1.fullList) = some (some 4) := by
    decide +kernel
  rw [hrun, Option.map_some, Option.some.injEq] at hfull
  have ho := ((ordered_largeBlocks.alloc h1).alloc h2).alloc h3
  intro a s hs hholds
  obtain ⟨hlt, hbase⟩ := ho a s hs
  left
  have ha : a = 4 := by
    simp only [SlabNode.holds, hbase, slabSize, Bool.and_eq_true, decide_eq_true_eq] at hholds
    omega
  rw [ha]
  exact hfull

/-- The block of the slab in the middle is freed: the slab stays on the full list and is put on the
free list as well, and the slab after it is on no list. -/
theorem not_good_middle :
    AllLegal 9 largeBlocks [] (threeAllocs ++ [.free (3 * slabSize)]) ∧
      ∃ c' live, run 9 largeBlocks [] (threeAllocs ++ [.free (3 * slabSize)]) = some (c', live) ∧
        ¬ Good c' live := by
  refine ⟨allLegal_threeAllocs (by simp), ?_⟩
  have hrun : (run 9 largeBlocks [] (threeAllocs ++ [.free (3 * slabSize)])).map
      (fun r => (r.1.fullList, r.1.slabs 1, r.1.slabs 3, r.1.slabs 4, r.2)) =
        some (some 4, some ⟨none, slabSize, 1, 0, []⟩, some ⟨none, 3 * slabSize, 1, 1, [3 * slabSize]⟩,
          some ⟨some 3, 4 * slabSize, 1, 0, []⟩, [4 * slabSize, slabSize]) := by
    decide +kernel
  obtain ⟨⟨c', live⟩, hr, heq⟩ := Option.map_eq_some_iff.mp hrun
  simp only [Prod.mk.injEq] at heq
  obtain ⟨hfull, h1, h3, h4, hlive⟩ := heq
  refine ⟨c', live, hr, fun hgood => ?_⟩
  obtain ⟨ls, hlists, hkind⟩ := hgood.lists
  have hin : 1 ∈ ls .full := by
    rw [hkind 1 _ h1, hlive]
    decide
  have hlist := (hlists .full).1
  rw [Cache.list, hfull, isList_some] at hlist
  obtain ⟨s4, l4, hl4, hs4, hlist⟩ := hlist
  obtain rfl := Option.some.inj (h4.symm.trans hs4)
  rw [isList_some] at hlist
  obtain ⟨s3, l3, hl3, hs3, hlist⟩ := hlist
  obtain rfl := Option.some.inj (h3.symm.trans hs3)
  rw [isList_none] at hlist
  rw [hl4, hl3, hlist] at hin
  simp at hin

end SneppxAlg.Slab
