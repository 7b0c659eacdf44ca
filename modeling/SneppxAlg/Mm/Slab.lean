import SneppxAlg.Lib.LinkedList

/-!
# `slab_alloc.c`: slab caches

Slabs are nodes of linked lists, at addresses in a heap. The list of free blocks inside of a slab,
which the code threads through the blocks themselves, is the list of their addresses. `ALLOC_PAGES`
and `calloc` succeed, and the addresses that they return are arguments. The object counters are
natural numbers. A walk along a list of slabs that does not end within `fuel` steps, or that reaches a
slab that is not there, gives `none`.
-/

namespace SneppxAlg.Slab

open Lib.LinkedList

/-- `SLAB_SIZE`. -/
def slabSize : ℕ := 1024 * 1024

/-- `SNEPPXSlab`. -/
structure SlabNode where
  next : Option ℕ
  memBase : ℕ
  numBlocks : ℕ
  freeCount : ℕ
  freeList : List ℕ
deriving DecidableEq

/-- `SNEPPXSlabCache`, and the slabs in the heap. -/
structure Cache where
  blockSize : ℕ
  partialList : Option ℕ
  fullList : Option ℕ
  freeList : Option ℕ
  activeObjects : ℕ
  totalObjects : ℕ
  slabs : ℕ → Option SlabNode

/-- The addresses of the blocks of a slab, as its free list links them: the last one first. -/
def blockList (base blockSize : ℕ) : List ℕ :=
  ((List.range (slabSize / blockSize)).map fun i => base + i * blockSize).reverse

/-- `slab_add_page`, with the addresses of the pages and of the slab. -/
def slabAddPage (c : Cache) (page slab : ℕ) : Cache :=
  let numBlocks := slabSize / c.blockSize
  let s : SlabNode :=
    { next := c.freeList
      memBase := page
      numBlocks := numBlocks
      freeCount := numBlocks
      freeList := blockList page c.blockSize }
  { c with
    slabs := Function.update c.slabs slab (some s)
    freeList := some slab
    totalObjects := c.totalObjects + numBlocks }

/-- The block size that `SNEPPX_slab_cache_create` settles on. -/
def roundBlockSize (blockSize alignment : UInt64) : UInt64 :=
  let blockSize := if blockSize < 8 then 8 else blockSize
  if alignment ≠ 0 ∧ alignment &&& (alignment - 1) = 0 then
    (blockSize + alignment - 1) &&& ~~~(alignment - 1)
  else blockSize

/-- `SNEPPX_slab_cache_create`; a block size that overflows to 0 is divided by. -/
def cacheCreate (blockSize alignment : UInt64) (page slab : ℕ) : Option Cache :=
  let blockSize := (roundBlockSize blockSize alignment).toNat
  if blockSize = 0 then none
  else
    some (slabAddPage
      { blockSize := blockSize
        partialList := none
        fullList := none
        freeList := none
        activeObjects := 0
        totalObjects := 0
        slabs := fun _ => none } page slab)

/-- The slab that an allocation takes off its list, with the cache; a page is added if there is
none. -/
def takeSlab (c : Cache) (page slab : ℕ) : Option (ℕ × SlabNode × Cache) :=
  match c.partialList.or c.freeList with
  | some a =>
    (c.slabs a).map fun s =>
      let c := if c.freeList = some a then { c with freeList := s.next } else c
      (a, s, if c.partialList = some a then { c with partialList := s.next } else c)
  | none =>
    let c := slabAddPage c page slab
    (c.freeList).bind fun a => (c.slabs a).map fun s => (a, s, { c with freeList := s.next })

/-- `SNEPPX_slab_cache_alloc`: the block, or a null pointer, and the cache. -/
def cacheAlloc (c : Cache) (page slab : ℕ) : Option (Option ℕ × Cache) :=
  (takeSlab c page slab).map fun (a, s, c) =>
    match s.freeList with
    | [] => (none, c)
    | block :: rest =>
      let s := { s with freeList := rest, freeCount := s.freeCount - 1 }
      let c := { c with activeObjects := c.activeObjects + 1 }
      if s.freeCount = 0 then
        (some block, { c with
          slabs := Function.update c.slabs a (some { s with next := c.fullList })
          fullList := some a })
      else
        (some block, { c with
          slabs := Function.update c.slabs a (some { s with next := c.partialList })
          partialList := some a })

/-- The pages of a slab contain an address. -/
def SlabNode.holds (s : SlabNode) (ptr : ℕ) : Bool := s.memBase ≤ ptr && ptr < s.memBase + slabSize

/-- The search of `free`: in the full slabs, then in the partial ones. -/
def findSlab (fuel : ℕ) (c : Cache) (ptr : ℕ) : Option (Option ℕ) :=
  (find SlabNode.next c.slabs (·.holds ptr) fuel c.fullList).bind fun found =>
    match found with
    | some a => some (some a)
    | none => find SlabNode.next c.slabs (·.holds ptr) fuel c.partialList

/-- A slab is taken off the full and the partial list if it is the first of them. -/
def unlink (c : Cache) (a : ℕ) (next : Option ℕ) : Cache :=
  let c := if c.fullList = some a then { c with fullList := next } else c
  if c.partialList = some a then { c with partialList := next } else c

/-- `SNEPPX_slab_cache_free`, for a pointer that is not null. -/
def cacheFree (fuel : ℕ) (c : Cache) (ptr : ℕ) : Option Cache :=
  (findSlab fuel c ptr).bind fun found =>
    match found with
    | none => some c
    | some a =>
      (c.slabs a).map fun s =>
        let c := unlink c a s.next
        let s := { s with freeList := ptr :: s.freeList, freeCount := s.freeCount + 1 }
        let c := { c with activeObjects := c.activeObjects - 1 }
        if s.freeCount = s.numBlocks then
          { c with
            slabs := Function.update c.slabs a (some { s with next := c.freeList })
            freeList := some a }
        else
          { c with
            slabs := Function.update c.slabs a (some { s with next := c.partialList })
            partialList := some a }

/-- The write through `pprev`: to the list of the cache, or to the link of a slab. -/
def setLink (c : Cache) (pprev : Option ℕ) (p : Option ℕ) : Cache :=
  match pprev with
  | none => { c with freeList := p }
  | some a => { c with slabs := Function.update c.slabs a ((c.slabs a).map fun s => { s with next := p }) }

/-- The loop of `gc`. -/
def gcLoop : ℕ → Cache → Option ℕ → Option ℕ → Option Cache
  | 0, _, _, _ => none
  | _ + 1, c, _, none => some c
  | fuel + 1, c, pprev, some a =>
    (c.slabs a).bind fun s =>
      if s.freeCount = s.numBlocks then
        let c := setLink c pprev s.next
        gcLoop fuel { c with
          slabs := Function.update c.slabs a none
          totalObjects := c.totalObjects - s.numBlocks } pprev s.next
      else gcLoop fuel c (some a) s.next

/-- `SNEPPX_slab_cache_gc`. -/
def cacheGc (fuel : ℕ) (c : Cache) : Option Cache := gcLoop fuel c none c.freeList

end SneppxAlg.Slab
