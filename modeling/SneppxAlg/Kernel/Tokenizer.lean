import Mathlib

/-!
# `tokenizer.c`: byte-pair encoding

The vocabulary is one array of 256-byte slots with a length for each entry. Training appends an
entry for the most frequent pair of the corpus, with the bytes of the two parts copied one after
the other into the next slot; nothing checks that they fit. An entry longer than its slot runs
into the next one and loses its end when that slot is filled.

Undefined behaviour (a write past the array, `memcpy` between overlapping ranges) is `none`.
Fresh memory holds arbitrary bytes `junk`. Failures of the two allocations inside the training
loop end it early and are given by an environment; those that make `create` or `train_bpe`
return `NULL` leave no tokenizer to speak of and are not modelled.
-/

namespace SneppxAlg.Tokenizer

/-- `MAX_TOKEN_LEN`: the size of a slot. -/
abbrev maxTokenLen : ℕ := 256

/-- `BpeMerge`. -/
structure Merge where
  leftId : ℕ
  rightId : ℕ
  newId : ℕ

/-- `SNEPPXTokenizer`, with `special.unk_id` for the special tokens. -/
structure Tok where
  capacity : ℕ
  vocabSize : ℕ
  tokenBytes : ℕ → UInt8
  tokenLens : ℕ → ℕ
  merges : List Merge
  unkId : ℤ

/-- The bytes stored for entry `i`. -/
def Tok.entry (tok : Tok) (i : ℕ) : List UInt8 :=
  (List.range (tok.tokenLens i)).map fun j => tok.tokenBytes (i * maxTokenLen + j)

/-- `SNEPPX_tokenizer_create`. -/
def create (junk : ℕ → UInt8) (vocabSize : ℤ) : Tok :=
  { capacity := if vocabSize > 256 then vocabSize.toNat else 256
    vocabSize := 256
    tokenBytes := fun p =>
      if p % maxTokenLen = 0 ∧ p / maxTokenLen < 256 then UInt8.ofNat (p / maxTokenLen) else junk p
    tokenLens := fun i => if i < 256 then 1 else 0
    merges := []
    unkId := -1 }

/-- `find_token` for a single byte. -/
def findToken (tok : Tok) (b : UInt8) : Option ℕ :=
  (List.range tok.vocabSize).find? fun i =>
    tok.tokenLens i = 1 ∧ tok.tokenBytes (i * maxTokenLen) = b

/-! ## Encoding and decoding -/

/-- One merge rule over the whole array: a replaced pair is looked at again in its new place. -/
def applyMerge (l r new : ℤ) : List ℤ → List ℤ
  | a :: b :: ids =>
    if a = l ∧ b = r then applyMerge l r new (new :: ids) else a :: applyMerge l r new (b :: ids)
  | ids => ids
termination_by ids => ids.length

/-- One round of `encode`: all the merges in order. -/
def mergePass (merges : List Merge) (ids : List ℤ) : List ℤ :=
  merges.foldl (fun ids m => applyMerge m.leftId m.rightId m.newId ids) ids

theorem length_applyMerge_le (l r new : ℤ) (ids : List ℤ) :
    (applyMerge l r new ids).length ≤ ids.length := by
  induction ids using applyMerge.induct l r new with
  | case1 a b ids h ih =>
    rw [applyMerge, if_pos h]
    simp only [List.length_cons] at ih ⊢
    omega
  | case2 a b ids h ih =>
    rw [applyMerge, if_neg h]
    simp only [List.length_cons] at ih ⊢
    omega
  | case3 ids h => rw [applyMerge.eq_def]; split <;> simp_all

/-- The loop of `encode`: rounds until nothing changes, that is, until no pair was replaced. -/
def mergeAll (merges : List Merge) (ids : List ℤ) : List ℤ :=
  if (mergePass merges ids).length < ids.length then mergeAll merges (mergePass merges ids)
  else mergePass merges ids
termination_by ids.length

/-- The `char` of a byte, as `int`. -/
def signedChar (b : UInt8) : ℤ := if b.toNat < 128 then b.toNat else b.toNat - 256

def byteId (tok : Tok) (b : UInt8) : ℤ :=
  match findToken tok b with
  | some id => id
  | none => if tok.unkId ≥ 0 then tok.unkId else signedChar b

/-- `SNEPPX_tokenizer_encode` into a buffer with room for all ids. The length of the id array is an
`int`. -/
def encode (tok : Tok) (text : List UInt8) : Option (List ℤ) :=
  if text.length + 1 < 2 ^ 31 then some (mergeAll tok.merges (text.map (byteId tok))) else none

/-- `SNEPPX_tokenizer_decode`: the bytes before the final `NUL`. -/
def decode (tok : Tok) (ids : List ℤ) : Option (List UInt8) :=
  if ids.length = 0 then none
  else some (ids.flatMap fun id : ℤ =>
    if 0 ≤ id ∧ id < tok.vocabSize then tok.entry id.toNat else [])

/-! ## Training -/

/-- Whether the allocation of the pair counts, and that of more room for merges, succeeds in round
`m`. -/
structure Alloc where
  pairsOk : ℕ → Bool
  mergesOk : ℕ → Bool

/-- `text_to_ids_bytewise`. -/
def textToIdsBytewise (tok : Tok) (text : List UInt8) : List ℤ :=
  text.map fun b => match findToken tok b with
    | some id => id
    | none => b.toNat

/-- The pairs of neighbours in an array. -/
def adjacent (ids : List ℤ) : List (ℤ × ℤ) := ids.zip ids.tail

/-- `count_pairs`: how often `l` stands before `r` in the corpus. -/
def countPair (corpus : List (List ℤ)) (l r : ℕ) : ℕ :=
  (corpus.map fun ids => (adjacent ids).count ((l : ℤ), (r : ℤ))).sum

/-- All pairs of ids below `dim`, in the order of the scan. -/
def allPairs (dim : ℕ) : List (ℕ × ℕ) :=
  (List.range dim).flatMap fun l => (List.range dim).map fun r => (l, r)

/-- The scan for `best_l`, `best_r`: the first pair with the highest count, if any count is
positive. -/
def bestPair (corpus : List (List ℤ)) (dim : ℕ) : Option (ℕ × ℕ) :=
  ((allPairs dim).foldl
    (fun (best : Option (ℕ × ℕ) × ℕ) p =>
      if countPair corpus p.1 p.2 > best.2 then (some p, countPair corpus p.1 p.2) else best)
    (none, 0)).1

/-- `memcpy` inside the slot array. -/
def memcpy (mem : ℕ → UInt8) (dst src len : ℕ) : Option (ℕ → UInt8) :=
  if len = 0 ∨ dst + len ≤ src ∨ src + len ≤ dst then
    some fun p => if dst ≤ p ∧ p < dst + len then mem (src + (p - dst)) else mem p
  else none

/-- The new entry for the pair `l`, `r`. -/
def addMerged (tok : Tok) (l r : ℕ) : Option Tok := do
  let newId := tok.vocabSize
  let lLen := tok.tokenLens l
  let rLen := tok.tokenLens r
  let newBytes := newId * maxTokenLen
  if tok.capacity * maxTokenLen ≤ newBytes + lLen + rLen then none
  else
    let mem ← memcpy tok.tokenBytes newBytes (l * maxTokenLen) lLen
    let mem ← memcpy mem (newBytes + lLen) (r * maxTokenLen) rLen
    some { tok with
      tokenBytes := Function.update mem (newBytes + lLen + rLen) 0
      tokenLens := Function.update tok.tokenLens newId (lLen + rLen)
      vocabSize := newId + 1 }

/-- What the loop of `train_bpe` carries from round to round. -/
structure TrainState where
  tok : Tok
  corpus : List (List ℤ)
  currentMaxId : ℕ

/-- The end of a round: the loop is left with a tokenizer, or goes on. -/
inductive Round
  | stop (tok : Tok)
  | next (s : TrainState)

/-- The pair that round `m` merges; `none` where the loop is left before a merge. -/
def picks (alloc : Alloc) (m : ℕ) (s : TrainState) : Option (ℕ × ℕ) :=
  if alloc.pairsOk m then
    match bestPair s.corpus s.currentMaxId with
    | some p => if s.tok.capacity ≤ s.tok.vocabSize then none else some p
    | none => none
  else none

/-- Round `m` of the loop. -/
def trainStep (alloc : Alloc) (m : ℕ) (s : TrainState) : Option Round :=
  match picks alloc m s with
  | none => some (.stop s.tok)
  | some (l, r) => do
    let newId := s.tok.vocabSize
    let tok ← addMerged s.tok l r
    if alloc.mergesOk m then
      some (.next
        { tok := { tok with merges := tok.merges ++ [⟨l, r, newId⟩] }
          corpus := s.corpus.map (applyMerge l r newId)
          currentMaxId := newId + 1 })
    else some (.stop tok)

/-- The loop of `train_bpe`, with `n` rounds to go after the first `m`. -/
def trainLoop (alloc : Alloc) : ℕ → ℕ → TrainState → Option Tok
  | 0, _, s => some s.tok
  | n + 1, m, s =>
    match trainStep alloc m s with
    | none => none
    | some (.stop tok) => some tok
    | some (.next s) => trainLoop alloc n (m + 1) s

/-- The conversion of a `size_t` to `int`. -/
@[irreducible] def toInt (n : ℕ) : ℤ := ((n + 2 ^ 31) % 2 ^ 32 : ℕ) - 2 ^ 31

def trainInit (junk : ℕ → UInt8) (texts : List (List UInt8)) (targetVocab : ℕ) : TrainState :=
  let tok := create junk (toInt targetVocab + 256)
  { tok := tok, corpus := texts.map (textToIdsBytewise tok), currentMaxId := 256 }

/-- The number of rounds, `max_merges`. -/
def maxMerges (targetVocab : ℕ) : ℕ := (toInt targetVocab - 256).toNat

/-- What `train_bpe` returns: `NULL`, nothing defined, or a tokenizer. -/
inductive Trained
  | null
  | undefined
  | ok (tok : Tok)

/-- `SNEPPX_tokenizer_train_bpe`. An array of ids whose length no `int` holds cannot be made, and
`(int)target_vocab + 256` must not overflow. -/
def trainBpe (alloc : Alloc) (junk : ℕ → UInt8) (texts : List (List UInt8)) (targetVocab : ℕ) :
    Trained :=
  if texts = [] ∨ targetVocab ≤ 256 then .null
  else if 2 ^ 31 ≤ toInt targetVocab + 256 then .undefined
  else if ∃ text ∈ texts, 2 ^ 31 ≤ text.length + 1 then .null
  else
    match trainLoop alloc (maxMerges targetVocab) 0 (trainInit junk texts targetVocab) with
    | some tok => .ok tok
    | none => .undefined

end SneppxAlg.Tokenizer
