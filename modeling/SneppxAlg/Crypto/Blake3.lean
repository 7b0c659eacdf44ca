import SneppxAlg.Lib.BlockStream
import SneppxAlg.Lib.Bytes
import SneppxAlg.Lib.Segments

/-!
# `blake3.c`: a hash in chunks of blocks

The functions give the calls of `blake3_compress` that they make, besides their results. The buffer of the state is
the list of the bytes in it.

Inside of a chunk each call starts from the key and overwrites the result of the call before it, so that only the last
one counts: its block holds what is behind the whole blocks of the chunk. A digest is therefore a function of the
length of the message and of its last bytes (`finalCall_eq_iff`), and two messages of one length have the same digest if
they differ in a whole block only.
-/

namespace SneppxAlg.Blake3

open Lib.Bytes Lib.BlockStream

/-! ## The compression function -/

/-- `ROTR32`. -/
def rotr32 (x n : UInt32) : UInt32 := x >>> n ||| x <<< (32 - n)

/-- A word of a block. -/
theorem lt_sixteen (i : Fin 16) : i.val < 16 := i.isLt

/-- `G`, on four words of `v`. -/
def g (v : Vector UInt32 16) (a b c d : Fin 16) (x y : UInt32) : Vector UInt32 16 :=
  let v := v.set a (v.get a + (v.get b + x)) (lt_sixteen a)
  let v := v.set d (rotr32 (v.get d ^^^ v.get a) 16) (lt_sixteen d)
  let v := v.set c (v.get c + v.get d) (lt_sixteen c)
  let v := v.set b (rotr32 (v.get b ^^^ v.get c) 12) (lt_sixteen b)
  let v := v.set a (v.get a + (v.get b + y)) (lt_sixteen a)
  let v := v.set d (rotr32 (v.get d ^^^ v.get a) 8) (lt_sixteen d)
  let v := v.set c (v.get c + v.get d) (lt_sixteen c)
  v.set b (rotr32 (v.get b ^^^ v.get c) 7) (lt_sixteen b)

local instance neZero_sixteen : NeZero 16 := ⟨by decide⟩

/-- `ROUND`. -/
def round (msg v : Vector UInt32 16) (r : Vector (Fin 16) 16) : Vector UInt32 16 :=
  let v := g v 0 4 8 12 (msg.get (r.get 0)) (msg.get (r.get 1))
  let v := g v 1 5 9 13 (msg.get (r.get 2)) (msg.get (r.get 3))
  let v := g v 2 6 10 14 (msg.get (r.get 4)) (msg.get (r.get 5))
  let v := g v 3 7 11 15 (msg.get (r.get 6)) (msg.get (r.get 7))
  let v := g v 0 5 10 15 (msg.get (r.get 8)) (msg.get (r.get 9))
  let v := g v 1 6 11 12 (msg.get (r.get 10)) (msg.get (r.get 11))
  let v := g v 2 7 8 13 (msg.get (r.get 12)) (msg.get (r.get 13))
  g v 3 4 9 14 (msg.get (r.get 14)) (msg.get (r.get 15))

/-- `IV`. -/
def iv : Vector UInt32 8 :=
  #v[0x6a09e667, 0xbb67ae85, 0x3c6ef372, 0xa54ff53a, 0x510e527f, 0x9b05688c, 0x1f83d9ab, 0x5be0cd19]

/-- `MSG_PERM`. -/
def msgPerm : List (Vector (Fin 16) 16) :=
  [#v[0, 1, 2, 3, 4, 5, 6, 7, 8, 9, 10, 11, 12, 13, 14, 15],
    #v[2, 6, 3, 10, 7, 0, 4, 13, 1, 11, 12, 5, 9, 14, 15, 8],
    #v[3, 4, 10, 12, 13, 2, 7, 14, 6, 5, 9, 0, 11, 15, 8, 1],
    #v[10, 7, 12, 11, 14, 3, 13, 15, 4, 0, 5, 2, 8, 1, 9, 6],
    #v[12, 13, 14, 15, 11, 10, 3, 8, 7, 2, 0, 4, 1, 9, 6, 5],
    #v[14, 15, 8, 9, 13, 12, 11, 10, 3, 4, 7, 6, 2, 5, 1, 0],
    #v[8, 9, 1, 0, 15, 14, 13, 12, 11, 10, 3, 4, 7, 6, 5, 2]]

/-- `FLAG_CHUNK_START`. -/
def flagChunkStart : UInt8 := (1 : UInt8) <<< 0

/-- `FLAG_CHUNK_END`. -/
def flagChunkEnd : UInt8 := (1 : UInt8) <<< 1

/-- `FLAG_ROOT`. -/
def flagRoot : UInt8 := (1 : UInt8) <<< 3

/-- The arguments of a call of `blake3_compress`. -/
structure Call where
  key : Vector UInt32 8
  block : List UInt8
  counter : UInt64
  flags : UInt8
deriving DecidableEq

/-- Word `i` of a block. -/
def word (block : List UInt8) (i : ℕ) : UInt32 :=
  (block.getD (i * 4) 0).toUInt32 ||| (block.getD (i * 4 + 1) 0).toUInt32 <<< 8 |||
    (block.getD (i * 4 + 2) 0).toUInt32 <<< 16 ||| (block.getD (i * 4 + 3) 0).toUInt32 <<< 24

/-- The words before the rounds. The key is overwritten from word 4 on. -/
def start (c : Call) : Vector UInt32 16 :=
  #v[c.key[0], c.key[1], c.key[2], c.key[3], iv[0], iv[1], iv[2], iv[3], iv[4], iv[5], iv[6], iv[7],
    c.counter.toUInt32, (c.counter >>> 32).toUInt32, 0, c.flags.toUInt32]

/-- `blake3_compress`. The words from 8 on are those of the key, which the last `memcpy` puts there. -/
def compress (c : Call) : Vector UInt32 16 :=
  let msg := Vector.ofFn fun i : Fin 16 => word c.block i
  let v := msgPerm.foldl (round msg) (start c)
  Vector.ofFn fun i : Fin 16 =>
    if h : i.val < 8 then v[i.val] ^^^ v[i.val + 8] else c.key[i.val - 8]

/-- The chaining value: the first words of the result. -/
def chainingValue (out : Vector UInt32 16) : Vector UInt32 8 := Vector.ofFn fun i : Fin 8 => out[i.val]

/-! ## The hash -/

/-- What the loop of `blake3_hash_chunk` leaves. -/
structure Chunk where
  data : List UInt8
  counter : UInt64
  flags : UInt8
  calls : List Call

/-- The loop of `blake3_hash_chunk`. -/
def chunkLoop (key : Vector UInt32 8) (s : Chunk) : Chunk :=
  if 64 ≤ s.data.length then
    chunkLoop key
      { data := s.data.drop 64
        counter := s.counter + 1
        flags := 0
        calls := s.calls ++ [⟨key, s.data.take 64, s.counter, s.flags⟩] }
  else s
termination_by s.data.length
decreasing_by rw [List.length_drop]; omega

def lastBlock (rest : List UInt8) : List UInt8 := rest ++ 0x80 :: List.replicate (63 - rest.length) 0

/-- The call of `blake3_hash_chunk` after its loop. -/
def lastCall (key : Vector UInt32 8) (s : Chunk) : Call :=
  let flags := s.flags ||| flagChunkEnd
  let flags := if s.data.length = 0 then flags ||| flagChunkStart else flags
  ⟨key, lastBlock s.data, s.counter, flags &&& ~~~flagChunkStart⟩

/-- `blake3_hash_chunk`: the result of its last call, and its calls. -/
def hashChunk (key : Vector UInt32 8) (data : List UInt8) (counter : UInt64) (flags : UInt8) :
    Vector UInt32 16 × List Call :=
  let s := chunkLoop key ⟨data, counter, flags ||| flagChunkStart, []⟩
  (compress (lastCall key s), s.calls ++ [lastCall key s])

/-- `SNEPPX_BLAKE3_CHUNK_LEN`. -/
def chunkLen : ℕ := 1024

/-- `key` and `counter` of a `SNEPPXBlake3State`, and the calls made so far. -/
structure Chain where
  key : Vector UInt32 8
  counter : UInt64
  calls : List Call

/-- `SNEPPXBlake3State`. -/
structure State where
  chain : Chain
  buf : List UInt8
  buf_lt : buf.length < chunkLen

/-- `SNEPPX_blake3_init`. -/
def init : State := ⟨⟨iv, 0, []⟩, [], by decide⟩

/-- A chunk is hashed into the key. -/
def flush (s : Chain) (chunk : List UInt8) : Chain :=
  let r := hashChunk s.key chunk s.counter flagChunkEnd
  ⟨chainingValue r.1, s.counter + 1, s.calls ++ r.2⟩

/-- `SNEPPX_blake3_update`. -/
def update (s : State) (data : List UInt8) : State :=
  if hd : data = [] then s
  else
    let take := min (chunkLen - s.buf.length) data.length
    let buf := s.buf ++ data.take take
    if hfull : buf.length = chunkLen then
      update ⟨flush s.chain buf, [], by decide⟩ (data.drop take)
    else
      update ⟨s.chain, buf, lt_of_le_of_ne (by
        have := s.buf_lt
        simp only [buf, take, List.length_append, List.length_take]
        omega) hfull⟩ (data.drop take)
termination_by data.length
decreasing_by
  all_goals
    have := s.buf_lt
    have := List.length_pos_iff.mpr hd
    rw [List.length_drop]
    omega

/-- `SNEPPX_blake3_finish`: the digest, and all of the calls. -/
def finish (s : State) : List UInt8 × List Call :=
  let flags := if s.buf.length = 0 ∧ s.chain.counter = 0 then flagRoot ||| flagChunkStart else flagRoot
  let r := hashChunk s.chain.key s.buf s.chain.counter (flags ||| flagChunkEnd)
  ((chainingValue r.1).toList.flatMap fun w => leBytes 4 w.toNat, s.chain.calls ++ r.2)

def hash (pieces : List (List UInt8)) : List UInt8 × List Call := finish (pieces.foldl update init)

/-! ## The pieces do not matter -/

theorem update_eq_feed (s : State) (data : List UInt8) :
    ((update s data).chain, (update s data).buf) = feed flush chunkLen (s.chain, s.buf) data := by
  fun_induction update s data with
  | case1 s => rw [feed, List.append_nil, run_of_lt s.buf_lt]
  | case2 s data hd take buf hfull ih =>
    have hle : chunkLen - s.buf.length ≤ data.length := by
      simp only [buf, take, List.length_append, List.length_take] at hfull
      have := s.buf_lt
      omega
    rw [ih, feed_of_le (s := (s.chain, s.buf)) (d := data) s.buf_lt hle, ← run_eq_feed]
    simp only [buf, take, Nat.min_eq_left hle]
  | case3 s data hd take buf hfull ih =>
    have hlt : data.length < chunkLen - s.buf.length := by
      simp only [buf, take, List.length_append, List.length_take] at hfull
      have := s.buf_lt
      omega
    have hbuf : (s.buf ++ data).length < chunkLen := by
      rw [List.length_append]
      omega
    rw [ih, feed_of_lt (s := (s.chain, s.buf)) (d := data) s.buf_lt hlt]
    simp only [buf, take, Nat.min_eq_right hlt.le, List.take_length, List.drop_length, feed, List.append_nil]
    exact run_of_lt hbuf

theorem foldl_update (s : State) (pieces : List (List UInt8)) :
    ((pieces.foldl update s).chain, (pieces.foldl update s).buf) =
      feed flush chunkLen (s.chain, s.buf) pieces.flatten := by
  rw [← foldl_feed s.buf_lt]
  induction pieces generalizing s with
  | nil => rfl
  | cons d pieces ih => rw [List.foldl_cons, List.foldl_cons, ih, update_eq_feed]

def after (m : List UInt8) : State where
  chain := (run flush chunkLen init.chain m).1
  buf := (run flush chunkLen init.chain m).2
  buf_lt := length_run_snd_lt (by decide) _ _

theorem State.ext {s t : State} (h : (s.chain, s.buf) = (t.chain, t.buf)) : s = t := by
  cases s
  cases t
  obtain ⟨rfl, rfl⟩ := Prod.mk.inj h
  rfl

/-- The hash depends on the message only. -/
theorem hash_eq (pieces : List (List UInt8)) : hash pieces = finish (after pieces.flatten) :=
  congrArg finish (State.ext (foldl_update init pieces))

/-! ## What the digest depends on -/

section Digest

variable {key : Vector UInt32 8} {s t : Chunk} {m m' : List UInt8}

/-- The loop leaves the bytes behind the whole blocks, and its counter and flags depend on the length only. -/
theorem chunkLoop_spec (key : Vector UInt32 8) (hlen : s.data.length = t.data.length) (hcounter : s.counter = t.counter)
    (hflags : s.flags = t.flags) :
    (chunkLoop key s).data = s.data.drop (s.data.length / 64 * 64) ∧
      (chunkLoop key s).counter = (chunkLoop key t).counter ∧ (chunkLoop key s).flags = (chunkLoop key t).flags := by
  induction hn : s.data.length using Nat.strong_induction_on generalizing s t with
  | _ n ih =>
    unfold chunkLoop
    by_cases h : 64 ≤ s.data.length
    · have hlt : (s.data.drop 64).length < n := by rw [List.length_drop]; omega
      have hlen' : (s.data.drop 64).length = (t.data.drop 64).length := by
        rw [List.length_drop, List.length_drop, hlen]
      rw [if_pos h, if_pos (show 64 ≤ t.data.length by omega)]
      obtain ⟨hdata, hrest⟩ := ih _ hlt
        (s := ⟨s.data.drop 64, s.counter + 1, 0, s.calls ++ [⟨key, s.data.take 64, s.counter, s.flags⟩]⟩)
        (t := ⟨t.data.drop 64, t.counter + 1, 0, t.calls ++ [⟨key, t.data.take 64, t.counter, t.flags⟩]⟩)
        hlen' (congrArg (· + 1) hcounter) rfl rfl
      refine ⟨?_, hrest⟩
      rw [hdata, List.drop_drop, List.length_drop]
      congr 1
      omega
    · rw [if_neg h, if_neg (show ¬64 ≤ t.data.length by omega)]
      refine ⟨?_, hcounter, hflags⟩
      rw [show n / 64 * 64 = 0 by omega, List.drop_zero]

theorem lastCall_congr (hdata : s.data = t.data) (hcounter : s.counter = t.counter) (hflags : s.flags = t.flags) :
    lastCall key s = lastCall key t := by
  rw [lastCall, lastCall, hdata, hcounter, hflags]

/-- Nothing of a whole chunk goes into the key. -/
theorem flush_congr {c d : Chain} {x y : List UInt8} (hx : x.length = chunkLen) (hy : y.length = chunkLen)
    (hkey : c.key = d.key) (hcounter : c.counter = d.counter) :
    (flush c x).key = (flush d y).key ∧ (flush c x).counter = (flush d y).counter := by
  refine ⟨?_, congrArg (· + 1) hcounter⟩
  have hspec := chunkLoop_spec c.key (s := ⟨x, c.counter, flagChunkEnd ||| flagChunkStart, []⟩)
    (t := ⟨y, d.counter, flagChunkEnd ||| flagChunkStart, []⟩) (hx.trans hy.symm) hcounter rfl
  have hspec' := chunkLoop_spec c.key (s := ⟨y, d.counter, flagChunkEnd ||| flagChunkStart, []⟩)
    (t := ⟨y, d.counter, flagChunkEnd ||| flagChunkStart, []⟩) rfl rfl rfl
  have hempty : ∀ z : List UInt8, z.length = chunkLen → z.drop (z.length / 64 * 64) = [] := by
    intro z hz
    rw [List.drop_eq_nil_iff, hz]
    decide
  rw [flush, flush, hashChunk, hashChunk, ← hkey, lastCall_congr _ hspec.2.1 hspec.2.2]
  rw [hspec.1, hspec'.1, hempty x hx, hempty y hy]

theorem foldl_flush_congr {c d : Chain} {xs ys : List (List UInt8)} (hlen : xs.length = ys.length)
    (hx : ∀ x ∈ xs, x.length = chunkLen) (hy : ∀ y ∈ ys, y.length = chunkLen) (hkey : c.key = d.key)
    (hcounter : c.counter = d.counter) :
    (xs.foldl flush c).key = (ys.foldl flush d).key ∧ (xs.foldl flush c).counter = (ys.foldl flush d).counter := by
  induction xs generalizing ys c d with
  | nil =>
    obtain rfl := List.length_eq_zero_iff.mp hlen.symm
    exact ⟨hkey, hcounter⟩
  | cons x xs ih =>
    obtain _ | ⟨y, ys⟩ := ys
    · cases hlen
    · obtain ⟨hx, hxs⟩ := List.forall_mem_cons.mp hx
      obtain ⟨hy, hys⟩ := List.forall_mem_cons.mp hy
      obtain ⟨hkey, hcounter⟩ := flush_congr hx hy hkey hcounter
      rw [List.foldl_cons, List.foldl_cons]
      exact ih (by simpa using hlen) hxs hys hkey hcounter

theorem after_congr (hlen : m.length = m'.length) :
    (after m).chain.key = (after m').chain.key ∧ (after m).chain.counter = (after m').chain.counter := by
  have hpos : 0 < chunkLen := by decide
  simp only [after, run_fst hpos]
  exact foldl_flush_congr (by rw [length_blocks, length_blocks, hlen]) (fun _ => length_of_mem_blocks)
    (fun _ => length_of_mem_blocks) rfl rfl

theorem length_after_buf (m : List UInt8) : (after m).buf.length = m.length % chunkLen := length_run_snd _ _

/-- The bytes behind the whole blocks of a message. -/
def tail (m : List UInt8) : List UInt8 := m.drop (m.length / 64 * 64)

/-- The loop of the last `blake3_hash_chunk`. -/
def finalChunk (m : List UInt8) : Chunk :=
  chunkLoop (after m).chain.key ⟨(after m).buf, (after m).chain.counter,
    (if (after m).buf.length = 0 ∧ (after m).chain.counter = 0 then flagRoot ||| flagChunkStart else flagRoot) |||
      flagChunkEnd ||| flagChunkStart, []⟩

def finalCall (m : List UInt8) : Call := lastCall (after m).chain.key (finalChunk m)

/-- The bytes of a digest. -/
def encode (v : Vector UInt32 8) : List UInt8 := v.toList.flatMap fun w => leBytes 4 w.toNat

theorem finish_after (m : List UInt8) : finish (after m) =
    (encode (chainingValue (compress (finalCall m))), (after m).chain.calls ++ ((finalChunk m).calls ++ [finalCall m])) :=
  rfl

/-- The last calls for two messages of one length differ in their blocks at most. -/
theorem finalChunk_spec (hlen : m.length = m'.length) : (finalChunk m).data = tail m ∧
    (finalChunk m).counter = (finalChunk m').counter ∧ (finalChunk m).flags = (finalChunk m').flags := by
  obtain ⟨hkey, hcounter⟩ := after_congr hlen
  have hbuf : (after m).buf.length = (after m').buf.length := by
    rw [length_after_buf, length_after_buf, hlen]
  rw [finalChunk, finalChunk, ← hkey]
  have hspec := chunkLoop_spec (after m).chain.key (s := ⟨(after m).buf, (after m).chain.counter,
      (if (after m).buf.length = 0 ∧ (after m).chain.counter = 0 then flagRoot ||| flagChunkStart else flagRoot) |||
        flagChunkEnd ||| flagChunkStart, []⟩)
    (t := ⟨(after m').buf, (after m').chain.counter,
      (if (after m').buf.length = 0 ∧ (after m').chain.counter = 0 then flagRoot ||| flagChunkStart
        else flagRoot) ||| flagChunkEnd ||| flagChunkStart, []⟩) hbuf hcounter (by rw [hbuf, hcounter])
  refine ⟨hspec.1.trans ?_, hspec.2⟩
  simp only [after, run_snd, tail, List.drop_drop, List.length_drop, chunkLen]
  congr 1
  omega

theorem length_tail (m : List UInt8) : (tail m).length = m.length % 64 := by
  rw [tail, List.length_drop]
  omega

theorem lastBlock_inj {x y : List UInt8} (hlen : x.length = y.length) (h : lastBlock x = lastBlock y) : x = y :=
  List.append_inj_left h hlen

/-- The last calls are the same if the last bytes are. -/
theorem finalCall_eq_iff (hlen : m.length = m'.length) : finalCall m = finalCall m' ↔ tail m = tail m' := by
  obtain ⟨hdata, hcounter, hflags⟩ := finalChunk_spec hlen
  have hdata' := (finalChunk_spec hlen.symm).1
  constructor
  · intro h
    have hblock : lastBlock (finalChunk m).data = lastBlock (finalChunk m').data := congrArg Call.block h
    rw [hdata, hdata'] at hblock
    exact lastBlock_inj (by rw [length_tail, length_tail, hlen]) hblock
  · intro h
    rw [finalCall, finalCall, (after_congr hlen).1]
    exact lastCall_congr (by rw [hdata, hdata', h]) hcounter hflags

theorem encode_injective : Function.Injective encode := by
  intro v w h
  refine Vector.ext fun i hi => ?_
  have hpiece := fun u : Vector UInt32 8 => Lib.Segments.take_drop_flatMap (f := fun w : UInt32 => leBytes 4 w.toNat)
    (k := 4) (l := u.toList) (i := i) (fun _ _ => length_leBytes 4 _) (by simpa using hi)
  have hbytes := (hpiece v).symm.trans ((congrArg (fun l => (l.drop (i * 4)).take 4) h).trans (hpiece w))
  have hval := congrArg leVal hbytes
  rw [leVal_leBytes, leVal_leBytes, Nat.mod_eq_of_lt (b := 256 ^ 4) (UInt32.toNat_lt _),
    Nat.mod_eq_of_lt (b := 256 ^ 4) (UInt32.toNat_lt _)] at hval
  simpa using UInt32.toNat_inj.mp hval

end Digest

/-! ## Collisions -/

/-- Two of the calls have different inputs and the same chaining value. -/
def Collides (calls : List Call) : Prop :=
  ∃ c ∈ calls, ∃ d ∈ calls, c ≠ d ∧ chainingValue (compress c) = chainingValue (compress d)

/-- A collision of two messages is one of the compression function. -/
def Reduces (pieces pieces' : List (List UInt8)) : Prop :=
  (hash pieces).1 = (hash pieces').1 →
    pieces.flatten = pieces'.flatten ∨ Collides ((hash pieces).2 ++ (hash pieces').2)

/-- **The digest depends on the message only, and a collision is one of the compression function just for messages
that differ behind their whole blocks.** Messages that differ elsewhere have the same digest, whatever the compression
function does. -/
theorem blake3_reduces_iff {pieces pieces' : List (List UInt8)}
    (hlen : pieces.flatten.length = pieces'.flatten.length) :
    hash pieces = hash [pieces.flatten] ∧
      (Reduces pieces pieces' ↔ pieces.flatten = pieces'.flatten ∨ tail pieces.flatten ≠ tail pieces'.flatten ∨
        Collides ((hash pieces).2 ++ (hash pieces').2)) := by
  refine ⟨by rw [hash_eq, hash_eq, List.flatten_singleton], ?_⟩
  have hcall : ∀ ps : List (List UInt8), finalCall ps.flatten ∈ (hash ps).2 := by
    intro ps
    rw [hash_eq, finish_after]
    simp
  constructor
  · intro h
    by_cases htail : tail pieces.flatten = tail pieces'.flatten
    · have hdigest : (hash pieces).1 = (hash pieces').1 := by
        rw [hash_eq, hash_eq, finish_after, finish_after, (finalCall_eq_iff hlen).mpr htail]
      exact (h hdigest).imp_right Or.inr
    · exact Or.inr (Or.inl htail)
  · rintro (heq | htail | hcollides) hdigest
    · exact Or.inl heq
    · rw [hash_eq, hash_eq, finish_after, finish_after] at hdigest
      exact Or.inr ⟨_, List.mem_append_left _ (hcall pieces), _, List.mem_append_right _ (hcall pieces'),
        mt (finalCall_eq_iff hlen).mp htail, encode_injective hdigest⟩
    · exact Or.inr hcollides

/-- One message in two pieces, and another one. -/
def twoPieces : List (List UInt8) := [[1], [2]]

def onePiece : List (List UInt8) := [[1, 3]]

theorem blake3_reduces_iff_bytes :
    hash twoPieces = hash [twoPieces.flatten] ∧
      (Reduces twoPieces onePiece ↔ twoPieces.flatten = onePiece.flatten ∨
        tail twoPieces.flatten ≠ tail onePiece.flatten ∨ Collides ((hash twoPieces).2 ++ (hash onePiece).2)) :=
  blake3_reduces_iff (by decide)

def firstCall (b : List UInt8) : Call := ⟨iv, b, 0, flagRoot ||| flagChunkEnd ||| flagChunkStart⟩

/-- The call behind one block. -/
def closingCall : Call := ⟨iv, lastBlock [], 1, flagChunkEnd⟩

theorem chunkLoop_block {key : Vector UInt32 8} {b : List UInt8} (hb : b.length = 64) (counter : UInt64)
    (flags : UInt8) : chunkLoop key ⟨b, counter, flags, []⟩ = ⟨[], counter + 1, 0, [⟨key, b, counter, flags⟩]⟩ := by
  have hrest : b.drop 64 = [] := List.drop_eq_nil_iff.mpr hb.le
  have htake : b.take 64 = b := List.take_of_length_le hb.le
  rw [chunkLoop, if_pos (show 64 ≤ b.length from hb.ge), chunkLoop]
  simp only [hrest, htake, List.length_nil, List.nil_append]
  rfl

theorem hash_block {b : List UInt8} (hb : b.length = 64) :
    hash [b] = (encode (chainingValue (compress closingCall)), [firstCall b, closingCall]) := by
  have hafter : after b = ⟨init.chain, b, by rw [hb]; decide⟩ :=
    State.ext (run_of_lt (by rw [hb]; decide))
  have hflags : (if b.length = 0 ∧ init.chain.counter = 0 then flagRoot ||| flagChunkStart else flagRoot) = flagRoot :=
    if_neg (by rw [hb]; decide)
  have hcall : lastCall iv ⟨[], 0 + 1, 0, [firstCall b]⟩ = closingCall := by
    rw [lastCall, closingCall]
    congr 1
    change (0 ||| flagChunkEnd ||| flagChunkStart) &&& ~~~flagChunkStart = flagChunkEnd
    decide
  rw [hash_eq, List.flatten_singleton, hafter, finish]
  simp only [hashChunk, chunkLoop_block hb, hflags]
  exact congrArg (fun c => (encode (chainingValue (compress c)), [firstCall b, c])) hcall

/-- Two blocks. -/
def zeros : List UInt8 := List.replicate 64 0

def ones : List UInt8 := List.replicate 64 1

theorem firstWords_nodup :
    ([firstCall zeros, firstCall ones, closingCall].map fun c => (compress c).get 0).Nodup := by
  decide +kernel

theorem not_reduces_blocks : ¬Reduces [zeros] [ones] := by
  intro h
  rw [Reduces, hash_block (show zeros.length = 64 from rfl), hash_block (show ones.length = 64 from rfl)] at h
  have hmem : ∀ c ∈ [firstCall zeros, closingCall] ++ [firstCall ones, closingCall],
      c ∈ [firstCall zeros, firstCall ones, closingCall] := by
    intro c hc
    rcases List.mem_append.mp hc with hc | hc
    · rcases List.mem_pair.mp hc with rfl | rfl
      · exact List.mem_cons_self
      · exact List.mem_cons_of_mem _ (List.mem_cons_of_mem _ List.mem_cons_self)
    · exact List.mem_cons_of_mem _ hc
  rcases h rfl with heq | ⟨c, hc, d, hd, hne, hvalue⟩
  · exact absurd heq (by decide)
  · have hword : (compress c).get 0 = (compress d).get 0 := by
      have h0 := congrArg (fun v : Vector UInt32 8 => v[0]) hvalue
      simpa [chainingValue, Vector.get_eq_getElem] using h0
    exact hne (List.inj_on_of_nodup_map firstWords_nodup (hmem c hc) (hmem d hd) hword)

end SneppxAlg.Blake3
