import SneppxAlg.Kernel.Tokenizer

/-!
# Tokenizers give texts back, as long as the entries fit

Encoding never changes what a sequence of ids stands for, provided that the entry of every merge is
the concatenation of its parts (`expand_mergeAll`). Training keeps that invariant round by round
when it starts the round with all entries inside their slots (`Good.step`): the new entry is then
written behind everything that is in use, even if it is itself too long. The next round would
overwrite its end; `entry_overwritten` is such a run.
-/

namespace SneppxAlg.Tokenizer

/-! ## What ids stand for -/

def bytesOf (tok : Tok) (id : ℤ) : List UInt8 :=
  if 0 ≤ id ∧ id < tok.vocabSize then tok.entry id.toNat else []

/-- The bytes that a sequence of ids stands for. -/
def expand (tok : Tok) (ids : List ℤ) : List UInt8 := ids.flatMap (bytesOf tok)

theorem bytesOf_natCast (tok : Tok) {i : ℕ} (h : i < tok.vocabSize) :
    bytesOf tok i = tok.entry i := by
  rw [bytesOf, if_pos ⟨by positivity, by exact_mod_cast h⟩, Int.toNat_natCast]

theorem expand_applyMerge (tok : Tok) {l r new : ℤ}
    (h : bytesOf tok new = bytesOf tok l ++ bytesOf tok r) (ids : List ℤ) :
    expand tok (applyMerge l r new ids) = expand tok ids := by
  induction ids using applyMerge.induct l r new with
  | case1 a b ids hab ih =>
    obtain ⟨rfl, rfl⟩ := hab
    rw [applyMerge, if_pos ⟨rfl, rfl⟩, ih]
    simp [expand, h]
  | case2 a b ids hab ih =>
    rw [applyMerge, if_neg hab]
    simpa [expand] using ih
  | case3 ids hids =>
    rw [applyMerge.eq_def]
    split
    · exact absurd rfl (hids _ _ _)
    · rfl

/-- Every merge rule replaces a pair by an entry that stands for the same bytes. -/
def MergesFaithful (tok : Tok) : Prop :=
  ∀ m ∈ tok.merges, m.leftId < tok.vocabSize ∧ m.rightId < tok.vocabSize ∧
    m.newId < tok.vocabSize ∧ tok.entry m.newId = tok.entry m.leftId ++ tok.entry m.rightId

theorem entry_withMerges (tok : Tok) (ms : List Merge) (i : ℕ) :
    ({ tok with merges := ms } : Tok).entry i = tok.entry i := rfl

theorem MergesFaithful.append {tok : Tok} (h : MergesFaithful tok) {m : Merge}
    (hl : m.leftId < tok.vocabSize) (hr : m.rightId < tok.vocabSize) (hn : m.newId < tok.vocabSize)
    (hentry : tok.entry m.newId = tok.entry m.leftId ++ tok.entry m.rightId) :
    MergesFaithful { tok with merges := tok.merges ++ [m] } := by
  intro m' hm'
  simp only [entry_withMerges]
  rcases List.mem_append.mp hm' with hm' | hm'
  · exact h m' hm'
  · obtain rfl := List.mem_singleton.mp hm'
    exact ⟨hl, hr, hn, hentry⟩

theorem expand_mergePass {tok : Tok} (h : MergesFaithful tok) (ids : List ℤ) :
    expand tok (mergePass tok.merges ids) = expand tok ids := by
  have hfold : ∀ ms : List Merge, (∀ m ∈ ms, m ∈ tok.merges) → ∀ ids,
      expand tok (mergePass ms ids) = expand tok ids := by
    intro ms
    induction ms with
    | nil => exact fun _ _ => rfl
    | cons m ms ih =>
      intro hms ids
      obtain ⟨hl, hr, hn, hentry⟩ := h m (hms m (by simp))
      have hbytes : bytesOf tok m.newId = bytesOf tok m.leftId ++ bytesOf tok m.rightId := by
        rw [bytesOf_natCast tok hl, bytesOf_natCast tok hr, bytesOf_natCast tok hn, hentry]
      have hone := expand_applyMerge tok hbytes ids
      rw [← hone]
      exact ih (fun m hm => hms m (by simp [hm])) _
  exact hfold tok.merges (fun _ hm => hm) ids

theorem expand_mergeAll {tok : Tok} (h : MergesFaithful tok) (ids : List ℤ) :
    expand tok (mergeAll tok.merges ids) = expand tok ids := by
  induction ids using mergeAll.induct tok.merges with
  | case1 ids hlt ih => rw [mergeAll, if_pos hlt, ih, expand_mergePass h]
  | case2 ids hlt => rw [mergeAll, if_neg hlt, expand_mergePass h]

/-! ## Texts -/

/-- The first 256 entries are the single bytes. -/
def BytesPresent (tok : Tok) : Prop :=
  256 ≤ tok.vocabSize ∧ ∀ i < 256, tok.tokenLens i = 1 ∧
    tok.tokenBytes (i * maxTokenLen) = UInt8.ofNat i

theorem BytesPresent.withMerges {tok : Tok} (h : BytesPresent tok) (ms : List Merge) :
    BytesPresent { tok with merges := ms } := by
  unfold BytesPresent at h ⊢
  exact h

theorem bytesOf_byteId {tok : Tok} (h : BytesPresent tok) (b : UInt8) :
    bytesOf tok (byteId tok b) = [b] := by
  have hb : b.toNat < 256 := b.toNat_lt
  have hfound : findToken tok b ≠ none := by
    intro hnone
    have hall := List.find?_eq_none.mp hnone b.toNat (List.mem_range.mpr (by have := h.1; omega))
    obtain ⟨hlen, hbyte⟩ := h.2 b.toNat hb
    simp [hlen, hbyte] at hall
  obtain ⟨i, hi⟩ := Option.ne_none_iff_exists'.mp hfound
  have hlt := List.mem_range.mp (List.mem_of_find?_eq_some hi)
  have hsome := List.find?_some hi
  simp only [decide_eq_true_eq] at hsome
  rw [byteId, hi]
  show bytesOf tok (i : ℤ) = [b]
  rw [bytesOf_natCast tok hlt, Tok.entry, hsome.1]
  simp [hsome.2]

theorem expand_map_byteId {tok : Tok} (h : BytesPresent tok) (text : List UInt8) :
    expand tok (text.map (byteId tok)) = text := by
  induction text with
  | nil => rfl
  | cons b text ih =>
    rw [List.map_cons, expand, List.flatMap_cons, bytesOf_byteId h b]
    exact congrArg _ ih

/-- What is asked of a tokenizer: entries are made of their parts, and texts come back. -/
structure Faithful (tok : Tok) : Prop where
  entries : ∀ m ∈ tok.merges, tok.entry m.newId = tok.entry m.leftId ++ tok.entry m.rightId
  roundTrip : ∀ text : List UInt8, text ≠ [] → 0 ∉ text → text.length + 1 < 2 ^ 31 →
    ∃ ids, encode tok text = some ids ∧ decode tok ids = some text

theorem faithful_of {tok : Tok} (hb : BytesPresent tok) (hm : MergesFaithful tok) :
    Faithful tok where
  entries := fun m h => (hm m h).2.2.2
  roundTrip := by
    intro text hne _ hlen
    have hexpand : expand tok (mergeAll tok.merges (text.map (byteId tok))) = text := by
      rw [expand_mergeAll hm, expand_map_byteId hb]
    refine ⟨_, by rw [encode, if_pos hlen], ?_⟩
    rw [decode, if_neg]
    · exact congrArg some hexpand
    · intro hzero
      rw [List.length_eq_zero_iff.mp hzero] at hexpand
      exact hne hexpand.symm

/-! ## Training -/

/-- All entries lie inside their slots. -/
def Fits (tok : Tok) : Prop := ∀ i < tok.vocabSize, tok.tokenLens i ≤ maxTokenLen

/-- The invariant of the training loop, with `n` rounds to go. -/
structure Good (n : ℕ) (s : TrainState) : Prop where
  bytes : BytesPresent s.tok
  merges : MergesFaithful s.tok
  maxId : s.currentMaxId = s.tok.vocabSize
  room : n ≠ 0 → s.tok.vocabSize + n + 256 ≤ s.tok.capacity

theorem mem_allPairs {dim : ℕ} {p : ℕ × ℕ} (h : p ∈ allPairs dim) : p.1 < dim ∧ p.2 < dim := by
  simp only [allPairs, List.mem_flatMap, List.mem_map, List.mem_range] at h
  obtain ⟨l, hl, r, hr, rfl⟩ := h
  exact ⟨hl, hr⟩

/-- The pair picked is one that the scan went over. -/
theorem bestPair_lt {corpus : List (List ℤ)} {dim : ℕ} {p : ℕ × ℕ}
    (h : bestPair corpus dim = some p) : p.1 < dim ∧ p.2 < dim := by
  have hfold : ∀ (ps : List (ℕ × ℕ)) (best : Option (ℕ × ℕ) × ℕ),
      (ps.foldl (fun (best : Option (ℕ × ℕ) × ℕ) p =>
        if countPair corpus p.1 p.2 > best.2 then (some p, countPair corpus p.1 p.2) else best)
        best).1 = some p → best.1 = some p ∨ p ∈ ps := by
    intro ps
    induction ps with
    | nil => exact fun _ h => Or.inl h
    | cons q ps ih =>
      intro best h
      rw [List.foldl_cons] at h
      rcases ih _ h with hq | hmem
      · by_cases hgt : countPair corpus q.1 q.2 > best.2
        · rw [if_pos hgt] at hq
          exact Or.inr (by simp [Option.some.inj hq])
        · rw [if_neg hgt] at hq
          exact Or.inl hq
      · exact Or.inr (by simp [hmem])
  rcases hfold _ _ h with hnone | hmem
  · simp at hnone
  · exact mem_allPairs hmem

/-- The memory after the left part was copied to `base`. -/
def copiedLeft (tok : Tok) (l base : ℕ) (p : ℕ) : UInt8 :=
  if base ≤ p ∧ p < base + tok.tokenLens l then tok.tokenBytes (l * maxTokenLen + (p - base))
  else tok.tokenBytes p

/-- The memory after the right part was copied behind it. -/
def copied (tok : Tok) (l r base : ℕ) (p : ℕ) : UInt8 :=
  if base + tok.tokenLens l ≤ p ∧ p < base + tok.tokenLens l + tok.tokenLens r then
    copiedLeft tok l base (r * maxTokenLen + (p - (base + tok.tokenLens l)))
  else copiedLeft tok l base p

/-- The tokenizer with the new entry written. -/
def withEntry (tok : Tok) (l r : ℕ) : Tok :=
  let base := tok.vocabSize * maxTokenLen
  { tok with
    tokenBytes := Function.update (copied tok l r base) (base + tok.tokenLens l + tok.tokenLens r) 0
    tokenLens := Function.update tok.tokenLens tok.vocabSize (tok.tokenLens l + tok.tokenLens r)
    vocabSize := tok.vocabSize + 1 }

/-- Between entries that fit, nothing that `addMerged` does is undefined. -/
theorem addMerged_eq {tok : Tok} {l r : ℕ} (hl : l < tok.vocabSize) (hr : r < tok.vocabSize)
    (hlLen : tok.tokenLens l ≤ maxTokenLen) (hrLen : tok.tokenLens r ≤ maxTokenLen)
    (hroom : tok.vocabSize + 257 ≤ tok.capacity) :
    addMerged tok l r = some (withEntry tok l r) := by
  -- both copies come from slots in front of the one written to
  have hcopy₁ : tok.tokenLens l = 0 ∨ tok.vocabSize * maxTokenLen + tok.tokenLens l ≤ l * maxTokenLen ∨
      l * maxTokenLen + tok.tokenLens l ≤ tok.vocabSize * maxTokenLen := by
    simp only [maxTokenLen] at hlLen ⊢
    omega
  have hcopy₂ : tok.tokenLens r = 0 ∨
      tok.vocabSize * maxTokenLen + tok.tokenLens l + tok.tokenLens r ≤ r * maxTokenLen ∨
      r * maxTokenLen + tok.tokenLens r ≤ tok.vocabSize * maxTokenLen + tok.tokenLens l := by
    simp only [maxTokenLen] at hrLen ⊢
    omega
  have hend : ¬ tok.capacity * maxTokenLen ≤
      tok.vocabSize * maxTokenLen + tok.tokenLens l + tok.tokenLens r := by
    simp only [maxTokenLen] at hlLen hrLen ⊢
    omega
  simp only [addMerged, if_neg hend, memcpy, if_pos hcopy₁, if_pos hcopy₂, Option.bind_eq_bind,
    Option.bind_some]
  rfl

/-- The slots in front of the new entry keep their bytes. -/
theorem withEntry_tokenBytes (tok : Tok) (l r : ℕ) {p : ℕ} (hp : p < tok.vocabSize * maxTokenLen) :
    (withEntry tok l r).tokenBytes p = tok.tokenBytes p := by
  show Function.update _ _ _ p = _
  rw [Function.update_of_ne (by omega), copied, if_neg (by omega), copiedLeft, if_neg (by omega)]

theorem withEntry_tokenLens (tok : Tok) (l r : ℕ) {i : ℕ} (hi : i < tok.vocabSize) :
    (withEntry tok l r).tokenLens i = tok.tokenLens i := Function.update_of_ne hi.ne _ _

theorem withEntry_tokenLens_new (tok : Tok) (l r : ℕ) :
    (withEntry tok l r).tokenLens tok.vocabSize = tok.tokenLens l + tok.tokenLens r :=
  Function.update_self _ _ _

/-- The new entry starts as its left part does. -/
theorem withEntry_tokenBytes_new (tok : Tok) {l : ℕ} (r : ℕ) (hl : 0 < tok.tokenLens l) :
    (withEntry tok l r).tokenBytes (tok.vocabSize * maxTokenLen) =
      tok.tokenBytes (l * maxTokenLen) := by
  have hbytes : (withEntry tok l r).tokenBytes =
      Function.update (copied tok l r (tok.vocabSize * maxTokenLen))
        (tok.vocabSize * maxTokenLen + tok.tokenLens l + tok.tokenLens r) 0 := rfl
  rw [hbytes, Function.update_of_ne (by omega), copied, if_neg (by omega), copiedLeft, if_pos (by omega),
    Nat.sub_self, Nat.add_zero]

theorem slot_le {i n : ℕ} (h : i < n) : i * maxTokenLen + maxTokenLen ≤ n * maxTokenLen := by
  simp only [maxTokenLen]
  omega

/-- An older entry that fits its slot is not touched. -/
theorem withEntry_entry_old (tok : Tok) (l r : ℕ) {i : ℕ} (hi : i < tok.vocabSize)
    (hlen : tok.tokenLens i ≤ maxTokenLen) : (withEntry tok l r).entry i = tok.entry i := by
  rw [Tok.entry, Tok.entry, withEntry_tokenLens tok l r hi]
  refine List.map_congr_left fun j hj => ?_
  have hslot := slot_le hi
  have hj := List.mem_range.mp hj
  exact withEntry_tokenBytes tok l r (by omega)

theorem withEntry_entry_new (tok : Tok) {l r : ℕ} (hr : r < tok.vocabSize)
    (hrLen : tok.tokenLens r ≤ maxTokenLen) :
    (withEntry tok l r).entry tok.vocabSize = tok.entry l ++ tok.entry r := by
  have hsplit : ∀ f : ℕ → UInt8, (List.range (tok.tokenLens l + tok.tokenLens r)).map f =
      (List.range (tok.tokenLens l)).map f ++
        (List.range (tok.tokenLens r)).map fun j => f (tok.tokenLens l + j) := by
    intro f
    rw [List.range_add, List.map_append, List.map_map]
    rfl
  have hbyte : ∀ p, p ≠ tok.vocabSize * maxTokenLen + tok.tokenLens l + tok.tokenLens r →
      (withEntry tok l r).tokenBytes p = copied tok l r (tok.vocabSize * maxTokenLen) p :=
    fun p hp => Function.update_of_ne hp _ _
  have hslot := slot_le hr
  rw [Tok.entry, withEntry_tokenLens_new, hsplit]
  congr 1
  · refine List.map_congr_left fun j hj => ?_
    have hj := List.mem_range.mp hj
    rw [hbyte _ (by omega), copied, if_neg (by omega), copiedLeft, if_pos (by omega),
      Nat.add_sub_cancel_left]
  · refine List.map_congr_left fun j hj => ?_
    have hj := List.mem_range.mp hj
    rw [hbyte _ (by omega), copied, if_pos (by omega),
      show tok.vocabSize * maxTokenLen + (tok.tokenLens l + j) -
        (tok.vocabSize * maxTokenLen + tok.tokenLens l) = j by omega, copiedLeft,
      if_neg (by omega)]

theorem picks_eq_some {alloc : Alloc} {m : ℕ} {s : TrainState} {p : ℕ × ℕ}
    (h : picks alloc m s = some p) : p.1 < s.currentMaxId ∧ p.2 < s.currentMaxId := by
  unfold picks at h
  split at h
  · split at h
    · next q hq =>
      split at h
      · simp at h
      · obtain rfl := Option.some.inj h
        exact bestPair_lt hq
    · simp at h
  · simp at h

/-- A round that starts with all entries in their slots keeps the invariant. -/
theorem withEntry_good {tok : Tok} {l r : ℕ} (hb : BytesPresent tok) (hm : MergesFaithful tok)
    (hfits : Fits tok) (hl : l < tok.vocabSize) (hr : r < tok.vocabSize) :
    BytesPresent (withEntry tok l r) ∧ MergesFaithful (withEntry tok l r) ∧
      (withEntry tok l r).entry tok.vocabSize =
        (withEntry tok l r).entry l ++ (withEntry tok l r).entry r := by
  have hold : ∀ i < tok.vocabSize, (withEntry tok l r).entry i = tok.entry i :=
    fun i hi => withEntry_entry_old tok l r hi (hfits i hi)
  refine ⟨⟨Nat.le_succ_of_le hb.1, ?_⟩, ?_, ?_⟩
  · intro i hi
    have hlt : i < tok.vocabSize := hi.trans_le hb.1
    have hslot := slot_le hlt
    obtain ⟨hlen, hbyte⟩ := hb.2 i hi
    rw [withEntry_tokenLens tok l r hlt, withEntry_tokenBytes tok l r (by simp only [maxTokenLen] at *; omega)]
    exact ⟨hlen, hbyte⟩
  · intro m hmem
    obtain ⟨h₁, h₂, h₃, hentry⟩ := hm m hmem
    refine ⟨Nat.lt_succ_of_lt h₁, Nat.lt_succ_of_lt h₂, Nat.lt_succ_of_lt h₃, ?_⟩
    rw [hold _ h₁, hold _ h₂, hold _ h₃, hentry]
  · rw [withEntry_entry_new tok hr (hfits r hr), hold l hl, hold r hr]

/-- Every round that merges a pair starts with all entries inside their slots. -/
def RoundsFit (alloc : Alloc) : ℕ → ℕ → TrainState → Prop
  | 0, _, _ => True
  | n + 1, m, s => (picks alloc m s ≠ none → Fits s.tok) ∧
    ∀ s', trainStep alloc m s = some (.next s') → RoundsFit alloc n (m + 1) s'

/-- One round: it is defined, and what it leaves behind is as good as what it found. -/
theorem Good.step {alloc : Alloc} {n m : ℕ} {s : TrainState} (h : Good (n + 1) s)
    (hfits : picks alloc m s ≠ none → Fits s.tok) :
    (∃ tok, trainStep alloc m s = some (.stop tok) ∧ BytesPresent tok ∧ MergesFaithful tok) ∨
      ∃ s', trainStep alloc m s = some (.next s') ∧ Good n s' := by
  unfold trainStep
  cases hp : picks alloc m s with
  | none => exact Or.inl ⟨s.tok, rfl, h.bytes, h.merges⟩
  | some p =>
    obtain ⟨l, r⟩ := p
    have hfits := hfits (by simp [hp])
    obtain ⟨hl, hr⟩ := picks_eq_some hp
    rw [h.maxId] at hl hr
    have hroom := h.room n.succ_ne_zero
    obtain ⟨hbytes, hmerges, hentry⟩ := withEntry_good h.bytes h.merges hfits hl hr
    dsimp only
    rw [addMerged_eq hl hr (hfits l hl) (hfits r hr) (by omega)]
    by_cases halloc : alloc.mergesOk m
    · refine Or.inr ⟨_, by simp only [Option.bind_eq_bind, Option.bind_some, if_pos halloc]; rfl, ?_⟩
      refine { bytes := hbytes.withMerges _, merges := ?_, maxId := rfl, room := fun _ => ?_ }
      · exact hmerges.append (m := ⟨l, r, s.tok.vocabSize⟩) (Nat.lt_succ_of_lt hl)
          (Nat.lt_succ_of_lt hr) (Nat.lt_succ_self _) hentry
      · show s.tok.vocabSize + 1 + n + 256 ≤ s.tok.capacity
        omega
    · refine Or.inl ⟨withEntry s.tok l r, ?_, hbytes, hmerges⟩
      simp only [Option.bind_eq_bind, Option.bind_some, if_neg halloc]

theorem trainLoop_good {alloc : Alloc} {n m : ℕ} {s : TrainState} (h : Good n s)
    (hfits : RoundsFit alloc n m s) :
    ∃ tok, trainLoop alloc n m s = some tok ∧ BytesPresent tok ∧ MergesFaithful tok := by
  induction n generalizing m s with
  | zero => exact ⟨s.tok, rfl, h.bytes, h.merges⟩
  | succ n ih =>
    obtain ⟨hfit, hnext⟩ := hfits
    rw [trainLoop]
    rcases h.step hfit with ⟨tok, hstep, hgood⟩ | ⟨s', hstep, hgood⟩
    · rw [hstep]
      exact ⟨tok, rfl, hgood⟩
    · rw [hstep]
      exact ih hgood (hnext s' hstep)

theorem good_trainInit (junk : ℕ → UInt8) (texts : List (List UInt8)) (targetVocab : ℕ) :
    Good (maxMerges targetVocab) (trainInit junk texts targetVocab) where
  bytes := by
    refine ⟨le_rfl, fun i hi => ⟨if_pos hi, ?_⟩⟩
    show (if _ then _ else _) = _
    rw [if_pos (by simp [maxTokenLen, hi]), Nat.mul_div_cancel i (by norm_num)]
  merges := by
    intro m hm
    simp [trainInit, create] at hm
  maxId := rfl
  room := by
    intro hn
    simp only [trainInit, create, maxMerges] at hn ⊢
    split <;> omega

/-- For every run of the training, on any texts and whatever the allocator does: if every round that
merges a pair starts with all entries inside their slots, the tokenizer that comes out gives texts
back. -/
theorem trainBpe_faithful (alloc : Alloc) (junk : ℕ → UInt8) (texts : List (List UInt8))
    (targetVocab : ℕ) (hne : texts ≠ []) (htarget : 256 < targetVocab)
    (hint : toInt targetVocab + 256 < 2 ^ 31) (hlen : ∀ text ∈ texts, text.length + 1 < 2 ^ 31)
    (hfits : RoundsFit alloc (maxMerges targetVocab) 0 (trainInit junk texts targetVocab)) :
    ∃ tok, trainBpe alloc junk texts targetVocab = .ok tok ∧ Faithful tok := by
  obtain ⟨tok, hloop, hb, hm⟩ := trainLoop_good (good_trainInit junk texts targetVocab) hfits
  have hshort : ¬ ∃ text ∈ texts, 2 ^ 31 ≤ text.length + 1 := by
    rintro ⟨text, hmem, hlong⟩
    exact absurd (hlen text hmem) (Nat.not_lt.mpr hlong)
  refine ⟨tok, ?_, faithful_of hb hm⟩
  rw [trainBpe, if_neg (by simp [hne, htarget]), if_neg (not_le.mpr hint), if_neg hshort, hloop]

/-- One round over the text `ab`, with room for one more entry. -/
theorem trainBpe_faithful_ab :
    ∃ tok, trainBpe ⟨fun _ => true, fun _ => true⟩ (fun _ => 0) [[97, 98]] 257 = .ok tok ∧
      Faithful tok := by
  have hint : toInt 257 = 257 := by
    unfold toInt
    decide
  refine trainBpe_faithful _ _ [[97, 98]] 257 (by simp) (by norm_num) (by rw [hint]; norm_num)
    (by simp) ?_
  have hrounds : maxMerges 257 = 1 := by
    rw [maxMerges, hint]
    decide
  rw [hrounds]
  refine ⟨fun _ i hi => ?_, fun _ _ => trivial⟩
  show (if i < 256 then 1 else 0) ≤ 256
  split <;> omega

/-! ## A run that overwrites an entry

The text `a…a` of 1024 bytes doubles the newest entry nine times, up to 512 bytes in a slot of 256;
then the pair `bc` of the second text is the most frequent one and takes the next slot. -/

/-- The pair with the strictly highest count is the one found. -/
theorem bestPair_eq {corpus : List (List ℤ)} {dim : ℕ} {p : ℕ × ℕ} (hl : p.1 < dim) (hr : p.2 < dim)
    (hpos : 0 < countPair corpus p.1 p.2)
    (hmax : ∀ q, q ≠ p → countPair corpus q.1 q.2 < countPair corpus p.1 p.2) :
    bestPair corpus dim = some p := by
  have hstay : ∀ ps : List (ℕ × ℕ), ps.foldl (fun (best : Option (ℕ × ℕ) × ℕ) q =>
      if countPair corpus q.1 q.2 > best.2 then (some q, countPair corpus q.1 q.2) else best)
      (some p, countPair corpus p.1 p.2) = (some p, countPair corpus p.1 p.2) := by
    intro ps
    induction ps with
    | nil => rfl
    | cons q ps ih =>
      have hle : ¬ countPair corpus q.1 q.2 > countPair corpus p.1 p.2 := by
        by_cases hq : q = p
        · simp [hq]
        · exact not_lt.mpr (hmax q hq).le
      rw [List.foldl_cons, if_neg hle, ih]
  have hfind : ∀ (ps : List (ℕ × ℕ)) (best : Option (ℕ × ℕ) × ℕ), p ∈ ps →
      best.2 < countPair corpus p.1 p.2 → ps.foldl (fun (best : Option (ℕ × ℕ) × ℕ) q =>
        if countPair corpus q.1 q.2 > best.2 then (some q, countPair corpus q.1 q.2) else best)
        best = (some p, countPair corpus p.1 p.2) := by
    intro ps
    induction ps with
    | nil => simp
    | cons q ps ih =>
      intro best hmem hbest
      rw [List.foldl_cons]
      by_cases hq : q = p
      · subst hq
        rw [if_pos hbest, hstay]
      · refine ih _ (by simpa [Ne.symm hq] using hmem) ?_
        split
        · exact hmax q hq
        · exact hbest
  have hmem : p ∈ allPairs dim := by
    simp only [allPairs, List.mem_flatMap, List.mem_map, List.mem_range]
    exact ⟨p.1, hl, p.2, hr, rfl⟩
  rw [bestPair, hfind _ _ hmem hpos]

/-- The second text, `bcdbc`, as ids. -/
def otherIds : List ℤ := [98, 99, 100, 98, 99]

theorem adjacent_replicate (n : ℕ) (x : ℤ) :
    adjacent (List.replicate (n + 1) x) = List.replicate n (x, x) := by
  rw [adjacent, List.tail_replicate, List.zip_replicate, Nat.add_sub_cancel,
    Nat.min_eq_right (Nat.le_succ n)]

theorem countPair_run (n x l r : ℕ) :
    countPair [List.replicate (n + 1) (x : ℤ), otherIds] l r =
      (if l = x ∧ r = x then n else 0) + (adjacent otherIds).count ((l : ℤ), (r : ℤ)) := by
  have hfirst : (List.replicate n ((x : ℤ), (x : ℤ))).count ((l : ℤ), (r : ℤ)) =
      if l = x ∧ r = x then n else 0 := by
    by_cases hx : l = x ∧ r = x
    · obtain ⟨rfl, rfl⟩ := hx
      simp
    · rw [if_neg hx, List.count_eq_zero]
      intro hmem
      have heq := List.eq_of_mem_replicate hmem
      simp only [Prod.mk.injEq, Nat.cast_inj] at heq
      exact hx heq
  simp [countPair, adjacent_replicate, hfirst]

theorem count_otherIds_le_one {q : ℤ × ℤ} (hq : q ≠ (98, 99)) :
    (adjacent otherIds).count q ≤ 1 := by
  have hadj : adjacent otherIds = [(98, 99), (99, 100), (100, 98), (98, 99)] := rfl
  have hq : ¬ ((98, 99) : ℤ × ℤ) = q := fun h => hq h.symm
  rw [hadj]
  simp only [List.count_cons, List.count_nil, beq_iff_eq, if_neg hq]
  by_cases h₁ : ((99, 100) : ℤ × ℤ) = q
  · subst h₁
    decide
  · rw [if_neg h₁]
    split <;> omega

theorem count_otherIds_le (q : ℤ × ℤ) : (adjacent otherIds).count q ≤ 2 := by
  by_cases hq : q = (98, 99)
  · subst hq
    decide
  · exact (count_otherIds_le_one hq).trans (by norm_num)

theorem applyMerge_replicate {x y : ℤ} (h : y ≠ x) (m : ℕ) :
    applyMerge x x y (List.replicate (2 * m) x) = List.replicate m y := by
  induction m with
  | zero => rw [Nat.mul_zero, List.replicate_zero, applyMerge.eq_def, List.replicate_zero]
  | succ m ih =>
    rw [show 2 * (m + 1) = 2 * m + 1 + 1 by omega, List.replicate_succ, List.replicate_succ,
      applyMerge, if_pos ⟨rfl, rfl⟩, List.replicate_succ]
    cases m with
    | zero => rw [Nat.mul_zero, List.replicate_zero, applyMerge.eq_def, List.replicate_zero]
    | succ m =>
      rw [show 2 * (m + 1) = 2 * m + 1 + 1 by omega, List.replicate_succ] at ih ⊢
      rw [applyMerge, if_neg (fun hy => h hy.1), ih]

theorem applyMerge_otherIds {x y : ℤ} (h₁ : x ≠ 98) (h₂ : x ≠ 99) (h₃ : x ≠ 100) :
    applyMerge x x y otherIds = otherIds := by
  simp [otherIds, applyMerge, Ne.symm h₁, Ne.symm h₂, Ne.symm h₃]

/-- The allocator that never fails. -/
def always : Alloc := ⟨fun _ => true, fun _ => true⟩

/-- The newest entry after `k` doublings. -/
def newest (k : ℕ) : ℕ := if k = 0 then 97 else 255 + k

/-- The training state after `k` doublings. -/
structure Doubled (k : ℕ) (s : TrainState) : Prop where
  vocab : s.tok.vocabSize = 256 + k
  maxId : s.currentMaxId = 256 + k
  capacity : s.tok.capacity = 522
  corpus : s.corpus = [List.replicate (2 ^ (10 - k)) (newest k : ℤ), otherIds]
  lens : ∀ j ≤ k, s.tok.tokenLens (newest j) = 2 ^ j
  first : ∀ j ≤ k, s.tok.tokenBytes (newest j * maxTokenLen) = 97
  others : s.tok.tokenLens 98 = 1 ∧ s.tok.tokenLens 99 = 1 ∧ s.tok.tokenBytes (98 * maxTokenLen) = 98
  merged : ∀ j < k, ⟨newest j, newest j, newest (j + 1)⟩ ∈ s.tok.merges

theorem newest_lt (k : ℕ) : newest k < 256 + k := by
  unfold newest
  split <;> omega

theorem trainStep_eq {m l r : ℕ} {s : TrainState} (hpick : bestPair s.corpus s.currentMaxId = some (l, r))
    (hl : l < s.tok.vocabSize) (hr : r < s.tok.vocabSize) (hlLen : s.tok.tokenLens l ≤ maxTokenLen)
    (hrLen : s.tok.tokenLens r ≤ maxTokenLen) (hroom : s.tok.vocabSize + 257 ≤ s.tok.capacity) :
    trainStep always m s = some (.next
      { tok := { withEntry s.tok l r with
          merges := s.tok.merges ++ [⟨l, r, s.tok.vocabSize⟩] }
        corpus := s.corpus.map (applyMerge l r s.tok.vocabSize)
        currentMaxId := s.tok.vocabSize + 1 }) := by
  have hpicks : picks always m s = some (l, r) := by
    simp only [picks, always, if_true, hpick]
    rw [if_neg (by omega)]
  rw [trainStep, hpicks]
  dsimp only
  rw [addMerged_eq hl hr hlLen hrLen hroom]
  rfl

theorem Doubled.step {k : ℕ} {s : TrainState} (h : Doubled k s) (hk : k < 9) :
    ∃ s', trainStep always k s = some (.next s') ∧ Doubled (k + 1) s' := by
  have hx := newest_lt k
  have hne : newest k ≠ 98 ∧ newest k ≠ 99 ∧ newest k ≠ 100 := by
    unfold newest
    split <;> omega
  have hnew : newest (k + 1) = 256 + k := by
    simp only [newest, Nat.succ_ne_zero, if_false]
    omega
  -- at least four copies are left, so their pair is more frequent than any other
  obtain ⟨m, hm, hm₂⟩ : ∃ m, 2 ^ (10 - k) = 2 * m ∧ 2 ≤ m :=
    ⟨2 ^ (9 - k), by rw [← pow_succ', show 9 - k + 1 = 10 - k by omega],
      by calc 2 = 2 ^ 1 := rfl
        _ ≤ 2 ^ (9 - k) := Nat.pow_le_pow_right (by norm_num) (by omega)⟩
  have hpow : 2 ^ (10 - (k + 1)) = m := by
    have h10 : 2 ^ (10 - k) = 2 * 2 ^ (10 - (k + 1)) := by
      rw [← pow_succ', show 10 - (k + 1) + 1 = 10 - k by omega]
    omega
  have hcount : ∀ l r, countPair s.corpus l r =
      (if l = newest k ∧ r = newest k then 2 * m - 1 else 0) +
        (adjacent otherIds).count ((l : ℤ), (r : ℤ)) := by
    intro l r
    rw [h.corpus, hm, show 2 * m = 2 * m - 1 + 1 by omega]
    exact countPair_run _ _ _ _
  have hbest : bestPair s.corpus s.currentMaxId = some (newest k, newest k) := by
    refine bestPair_eq (by rw [h.maxId]; exact hx) (by rw [h.maxId]; exact hx) ?_ ?_
    · rw [hcount, if_pos ⟨rfl, rfl⟩]
      omega
    · intro q hq
      have hle := count_otherIds_le ((q.1 : ℤ), (q.2 : ℤ))
      rw [hcount, hcount, if_neg (fun hq' => hq (Prod.ext hq'.1 hq'.2)), if_pos ⟨rfl, rfl⟩]
      omega
  have hlen : s.tok.tokenLens (newest k) ≤ maxTokenLen := by
    rw [h.lens k le_rfl]
    calc 2 ^ k ≤ 2 ^ 8 := Nat.pow_le_pow_right (by norm_num) (by omega)
      _ = maxTokenLen := rfl
  have hlt : newest k < s.tok.vocabSize := by rw [h.vocab]; exact hx
  refine ⟨_, trainStep_eq hbest hlt hlt hlen hlen (by rw [h.vocab, h.capacity]; omega), ?_⟩
  have hold : ∀ j ≤ k, newest j < s.tok.vocabSize := by
    intro j hj
    rw [h.vocab]
    exact (newest_lt j).trans_le (by omega)
  have hslots : ∀ i < s.tok.vocabSize,
      (withEntry s.tok (newest k) (newest k)).tokenBytes (i * maxTokenLen) =
        s.tok.tokenBytes (i * maxTokenLen) := fun i hi =>
    withEntry_tokenBytes _ _ _ (by have := slot_le hi; simp only [maxTokenLen] at *; omega)
  exact {
    vocab := by
      show s.tok.vocabSize + 1 = _
      rw [h.vocab, Nat.add_assoc]
    maxId := by
      show s.tok.vocabSize + 1 = _
      rw [h.vocab, Nat.add_assoc]
    capacity := h.capacity
    corpus := by
      show s.corpus.map _ = _
      rw [h.corpus, hm, hpow, h.vocab, ← hnew, List.map_cons, List.map_cons, List.map_nil,
        applyMerge_replicate (by rw [hnew]; exact_mod_cast (by omega)),
        applyMerge_otherIds (by exact_mod_cast hne.1) (by exact_mod_cast hne.2.1)
          (by exact_mod_cast hne.2.2)]
    lens := by
      intro j hj
      show (withEntry s.tok (newest k) (newest k)).tokenLens (newest j) = _
      rcases Nat.lt_or_ge j (k + 1) with hj' | hj'
      · rw [withEntry_tokenLens _ _ _ (hold j (by omega)), h.lens j (by omega)]
      · obtain rfl : j = k + 1 := by omega
        rw [hnew, ← h.vocab, withEntry_tokenLens_new, h.lens k le_rfl, pow_succ, Nat.mul_two]
    first := by
      intro j hj
      show (withEntry s.tok (newest k) (newest k)).tokenBytes (newest j * maxTokenLen) = _
      rcases Nat.lt_or_ge j (k + 1) with hj' | hj'
      · rw [hslots _ (hold j (by omega)), h.first j (by omega)]
      · obtain rfl : j = k + 1 := by omega
        have hpos : 0 < s.tok.tokenLens (newest k) := by
          rw [h.lens k le_rfl]
          positivity
        rw [hnew, ← h.vocab, withEntry_tokenBytes_new _ _ hpos, h.first k le_rfl]
    others := by
      have h98 : 98 < s.tok.vocabSize := by rw [h.vocab]; omega
      have h99 : 99 < s.tok.vocabSize := by rw [h.vocab]; omega
      exact ⟨(withEntry_tokenLens _ _ _ h98).trans h.others.1,
        (withEntry_tokenLens _ _ _ h99).trans h.others.2.1, (hslots 98 h98).trans h.others.2.2⟩
    merged := by
      intro j hj
      rcases Nat.lt_or_ge j k with hj' | hj'
      · exact List.mem_append_left _ (h.merged j hj')
      · obtain rfl : j = k := by omega
        refine List.mem_append_right _ ?_
        rw [hnew, h.vocab]
        exact List.mem_singleton.mpr rfl }

theorem findToken_eq {tok : Tok} (h : BytesPresent tok) (b : UInt8) :
    findToken tok b = some b.toNat := by
  have hb : b.toNat < 256 := b.toNat_lt
  rw [findToken, List.find?_range_eq_some]
  refine ⟨?_, List.mem_range.mpr (hb.trans_le h.1), ?_⟩
  · simp [(h.2 b.toNat hb).1, (h.2 b.toNat hb).2]
  · intro i hi
    have hlt : i < 256 := hi.trans hb
    have hne : UInt8.ofNat i ≠ b := by
      rintro rfl
      rw [UInt8.toNat_ofNat', Nat.mod_eq_of_lt hlt] at hi
      exact hi.false
    simp [(h.2 i hlt).1, (h.2 i hlt).2, hne]

/-- The first text, `a…a`. -/
def longRun : List UInt8 := List.replicate 1024 97

/-- The second text, `bcdbc`. -/
def otherText : List UInt8 := [98, 99, 100, 98, 99]

theorem doubled_init : Doubled 0 (trainInit (fun _ => 0) [longRun, otherText] 266) := by
  have hint : toInt 266 = 266 := by
    unfold toInt
    decide
  have hbytes := (good_trainInit (fun _ => 0) [longRun, otherText] 266).bytes
  have hids : ∀ text, textToIdsBytewise (trainInit (fun _ => 0) [longRun, otherText] 266).tok text =
      text.map fun b => (b.toNat : ℤ) := by
    intro text
    refine List.map_congr_left fun b _ => ?_
    rw [findToken_eq hbytes]
  have h97 := hbytes.2 97 (by norm_num)
  have h98 := hbytes.2 98 (by norm_num)
  exact {
    vocab := rfl
    maxId := rfl
    capacity := by
      show (if toInt 266 + 256 > 256 then (toInt 266 + 256).toNat else 256) = 522
      rw [hint]
      decide
    corpus := by
      show [longRun, otherText].map _ = _
      rw [List.map_cons, List.map_cons, List.map_nil]
      have hrun := (hids longRun).trans (List.map_replicate)
      have hother := hids otherText
      exact congrArg₂ (fun a b => [a, b]) hrun hother
    lens := by
      rintro j hj
      obtain rfl : j = 0 := by omega
      exact h97.1
    first := by
      rintro j hj
      obtain rfl : j = 0 := by omega
      exact h97.2
    others := ⟨h98.1, (hbytes.2 99 (by norm_num)).1, h98.2⟩
    merged := fun j hj => absurd hj (Nat.not_lt_zero j) }

theorem doubled_nine : ∃ s, Doubled 9 s ∧
    trainLoop always 10 0 (trainInit (fun _ => 0) [longRun, otherText] 266) =
      trainLoop always 1 9 s := by
  have hrun : ∀ k ≤ 9, ∃ s, Doubled k s ∧
      trainLoop always 10 0 (trainInit (fun _ => 0) [longRun, otherText] 266) =
        trainLoop always (10 - k) k s := by
    intro k
    induction k with
    | zero => exact fun _ => ⟨_, doubled_init, rfl⟩
    | succ k ih =>
      intro hk
      obtain ⟨s, hs, hloop⟩ := ih (by omega)
      obtain ⟨s', hstep, hs'⟩ := hs.step (by omega)
      refine ⟨s', hs', ?_⟩
      rw [hloop, show 10 - k = (10 - (k + 1)) + 1 by omega, trainLoop, hstep]
  exact hrun 9 le_rfl

/-- Trained on 1024 times `a` and on `bcdbc` for ten merges, the tokenizer has an entry whose bytes are
not those of its parts. -/
theorem entry_overwritten : ∃ tok,
    trainBpe always (fun _ => 0) [longRun, otherText] 266 = .ok tok ∧ ¬ Faithful tok := by
  obtain ⟨s, hs, hloop⟩ := doubled_nine
  have hint : toInt 266 = 266 := by
    unfold toInt
    decide
  have hcount : ∀ l r, countPair s.corpus l r =
      (if l = 264 ∧ r = 264 then 1 else 0) + (adjacent otherIds).count ((l : ℤ), (r : ℤ)) := by
    intro l r
    rw [hs.corpus]
    exact countPair_run 1 264 l r
  have hbest : bestPair s.corpus s.currentMaxId = some (98, 99) := by
    refine bestPair_eq (by rw [hs.maxId]; norm_num) (by rw [hs.maxId]; norm_num) ?_ ?_
    · rw [hcount]
      decide
    · intro q hq
      have hone : (adjacent otherIds).count ((q.1 : ℤ), (q.2 : ℤ)) ≤ 1 := by
        refine count_otherIds_le_one fun h => hq ?_
        simp only [Prod.mk.injEq] at h
        exact Prod.ext (by exact_mod_cast h.1) (by exact_mod_cast h.2)
      have htwo : countPair s.corpus 98 99 = 2 := by
        rw [hcount]
        decide
      show countPair s.corpus q.1 q.2 < countPair s.corpus 98 99
      rw [htwo, hcount]
      by_cases h : q.1 = 264 ∧ q.2 = 264
      · rw [h.1, h.2]
        decide
      · rw [if_neg h]
        omega
  have hvocab := hs.vocab
  have hstep := trainStep_eq (m := 9) hbest (by rw [hvocab]; norm_num) (by rw [hvocab]; norm_num)
    (by rw [hs.others.1]; norm_num) (by rw [hs.others.2.1]; norm_num)
    (by rw [hvocab, hs.capacity])
  have htrain : trainBpe always (fun _ => 0) [longRun, otherText] 266 = .ok
      { withEntry s.tok 98 99 with merges := s.tok.merges ++ [⟨98, 99, s.tok.vocabSize⟩] } := by
    have hrounds : maxMerges 266 = 10 := by
      rw [maxMerges, hint]
      decide
    have hshort : ¬ ∃ text ∈ [longRun, otherText], 2 ^ 31 ≤ text.length + 1 := by
      rintro ⟨text, hmem, hlong⟩
      have hle : text.length ≤ 1024 := by
        rcases List.mem_pair.mp hmem with rfl | rfl
        · rw [longRun, List.length_replicate]
        · decide
      omega
    rw [trainBpe, if_neg (by simp), if_neg (by rw [hint]; norm_num), if_neg hshort, hrounds, hloop,
      trainLoop, hstep]
    rfl
  refine ⟨_, htrain, fun hfaithful => ?_⟩
  -- byte 256 of the entry for the last doubling is the first byte of the next slot
  have hentry := hfaithful.entries ⟨263, 263, 264⟩ (List.mem_append_left _ (hs.merged 8 (by norm_num)))
  simp only [entry_withMerges] at hentry
  have h263 : (withEntry s.tok 98 99).tokenLens 263 = 256 :=
    (withEntry_tokenLens _ _ _ (by rw [hvocab]; norm_num)).trans (hs.lens 8 (by norm_num))
  have h264 : (withEntry s.tok 98 99).tokenLens 264 = 512 :=
    (withEntry_tokenLens _ _ _ (by rw [hvocab]; norm_num)).trans (hs.lens 9 (by norm_num))
  have hbyte : ∀ i j : ℕ, j < (withEntry s.tok 98 99).tokenLens i →
      ((withEntry s.tok 98 99).entry i)[j]? =
        some ((withEntry s.tok 98 99).tokenBytes (i * maxTokenLen + j)) := by
    intro i j hj
    rw [Tok.entry, List.getElem?_map, List.getElem?_range hj, Option.map_some]
  have hleft : ((withEntry s.tok 98 99).entry 264)[256]? = some 98 := by
    rw [hbyte 264 256 (by rw [h264]; norm_num)]
    have hslot : 264 * maxTokenLen + 256 = s.tok.vocabSize * maxTokenLen := by
      rw [hvocab, maxTokenLen]
    rw [hslot, withEntry_tokenBytes_new _ _ (by rw [hs.others.1]; norm_num), hs.others.2.2]
  have hright : ((withEntry s.tok 98 99).entry 263 ++ (withEntry s.tok 98 99).entry 263)[256]? =
      some 97 := by
    have hlen : ((withEntry s.tok 98 99).entry 263).length = 256 := by
      rw [Tok.entry, List.length_map, List.length_range, h263]
    rw [List.getElem?_append_right hlen.le, hlen, Nat.sub_self, hbyte 263 0 (by rw [h263]; norm_num),
      Nat.add_zero, withEntry_tokenBytes _ _ _ (by rw [hvocab]; norm_num [maxTokenLen])]
    exact congrArg some (hs.first 8 (by norm_num))
  have h9798 := (hleft.symm.trans (congrArg (·[256]?) hentry)).trans hright
  exact absurd h9798 (by decide)

end SneppxAlg.Tokenizer
