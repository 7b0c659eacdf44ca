import SneppxAlg.Kernel.Tokenizer
import SneppxAlg.Lib.LineScan
import SneppxAlg.Lib.Segments

/-!
# The text dataset

`SNEPPX_text_dataset_create` and `SNEPPX_text_dataset_get_batch` of `kernel/data/data_pipeline.c`. The tokens
of all samples lie one after another in one array, and the table with the offsets of the samples lies behind
it in the same allocation. A sample is a line, or with `line_by_line` unset one of the chunks of `seq_len`
tokens.

`get_batch` copies `seq_len - 1` tokens for each row, whatever the length of the sample, so that the last
column is never written (`batch_correct_iff`). The other columns are right exactly for samples of at least
`seq_len` tokens that do not lie behind the first `num_samples * seq_len` tokens of the dataset.
-/

namespace SneppxAlg.TextData

open Lib.LineScan Lib.Segments Tokenizer

/-- `tokens` are those at the start of `token_data`, which has room for `fileSize` of them and behind it for as
many entries of `sample_offsets`. -/
structure TextDataset where
  fileSize : ℕ
  tokens : List ℤ
  sampleOffsets : List ℕ
  seqLen : ℕ

def TextDataset.numSamples (ds : TextDataset) : ℕ := ds.sampleOffsets.length

/-! ## Creating a dataset -/

/-- The tokens and offsets so far; `token_cursor` is the number of tokens. -/
structure Packed where
  tokens : List ℤ
  offsets : List ℕ

/-- The step for a line. The ids of a line have room, because an id stands for at least one byte
(`Holds.room`). -/
def packLine (tok : Tok) (acc : Option Packed) (line : List UInt8) : Option Packed :=
  acc.bind fun a => (encode tok line).map fun ids =>
    if ids = [] then a else ⟨a.tokens ++ ids, a.offsets ++ [a.tokens.length * 4]⟩

/-- The loop over the text with `line_by_line` set. -/
def packLines (tok : Tok) (text : List UInt8) : Option Packed :=
  scan false (fun acc : Option Packed => acc.all fun a => decide (text.count 10 ≤ a.offsets.length))
    (packLine tok) text.length (text.length + 1) (text ++ [0]) 0 0 (some ⟨[], []⟩)

/-- The offsets of the chunks, with `line_by_line` unset. -/
def packChunks (tok : Tok) (text : List UInt8) (seqLen : ℕ) : Option Packed :=
  (encode tok (cstr text)).bind fun ids =>
    if ids.length / seqLen = 0 then none
    else some ⟨ids, (List.range (ids.length / seqLen)).map fun i => i * seqLen * 4⟩

/-- `SNEPPX_text_dataset_create` for a file with these bytes. `none` is NULL, or a text for which the `int`
arithmetic of the tokenizer and of the room for its ids is not exact. -/
def create (tok : Tok) (text : List UInt8) (seqLen : ℕ) (lineByLine : Bool) : Option TextDataset :=
  if seqLen = 0 ∨ text = [] ∨ text.count 10 = 0 ∨ 2 ^ 32 ≤ text.length then none
  else
    (if lineByLine then packLines tok text else packChunks tok text seqLen).map fun a =>
      ⟨text.length, a.tokens, a.offsets, seqLen⟩

/-! ## Reading a batch -/

/-- What a place of a tensor holds: a token with its place in the dataset, the zero of cleared memory, or half
an entry of the table of offsets. -/
inductive Cell where
  | token (pos : ℕ) (id : ℤ)
  | cleared
  | offset (half : ℕ)
deriving DecidableEq

/-- `src[k]`: the tokens, cleared memory, and the table. Beyond it there is nothing. -/
def TextDataset.src (ds : TextDataset) (k : ℕ) : Option Cell :=
  match ds.tokens[k]? with
  | some id => some (.token k id)
  | none =>
    if k < ds.fileSize then some .cleared
    else if k < 3 * ds.fileSize then some (.offset (k - ds.fileSize))
    else none

/-- `sample_offsets[idx]`. The table has an entry for each byte of the file; those that are not used are cleared. -/
def TextDataset.offsetAt (ds : TextDataset) (idx : ℕ) : Option ℕ :=
  match ds.sampleOffsets[idx]? with
  | some off => some off
  | none => if idx < ds.fileSize then some 0 else none

/-- The two tensors have one shape. A place of both is an input and its target. -/
abbrev Batch := List (Cell × Cell)

/-- The two assignments, which are undefined beyond the tensors. -/
def copyToken (ds : TextDataset) (k place : ℕ) (b : Batch) : Option Batch :=
  if place < b.length then (ds.src k).bind fun x => (ds.src (k + 1)).map fun y => b.set place (x, y) else none

/-- The inner loop from column `j` on, as long as its second condition holds. -/
def copyRow (ds : TextDataset) (offset row : ℕ) : (columns : ℕ) → (j : ℕ) → Batch → Option Batch
  | 0, _, b => some b
  | columns + 1, j, b =>
    if offset + j + 1 < ds.numSamples * ds.seqLen % 2 ^ 64 then
      (copyToken ds (offset + j) ((row * ds.seqLen + j) % 2 ^ 64) b).bind (copyRow ds offset row columns (j + 1))
    else some b

/-- The loop over the rows. -/
def copyRows (ds : TextDataset) (start : ℕ) : (rows : ℕ) → Batch → Option Batch
  | 0, b => some b
  | i + 1, b => (copyRows ds start i b).bind fun b =>
      (ds.offsetAt (start + i)).bind fun off => copyRow ds (off / 4) i (ds.seqLen - 1) 0 b

/-- `actual`. The sum is one of `size_t`. -/
def TextDataset.actual (ds : TextDataset) (start batchSize : ℕ) : ℕ :=
  if ds.numSamples < (start + batchSize) % 2 ^ 64 then ds.numSamples - start else batchSize

/-- The bytes of a tensor of `SNEPPX_INT32`. -/
def TextDataset.tensorBytes (ds : TextDataset) (actual : ℕ) : ℕ := actual * ds.seqLen % 2 ^ 64 * 4 % 2 ^ 64

/-- `SNEPPX_text_dataset_get_batch`; `alloc` says which requests for memory succeed. `none` is undefined, and
`some none` the return code 1. -/
def getBatch (alloc : ℕ → Bool) (ds : TextDataset) (start batchSize : ℕ) : Option (Option Batch) :=
  if ds.numSamples ≤ start then some none
  else if alloc (ds.tensorBytes (ds.actual start batchSize)) = false then some none
  else
    (copyRows ds start (ds.actual start batchSize)
      (List.replicate (ds.tensorBytes (ds.actual start batchSize) / 4) (.cleared, .cleared))).map some

/-! ## What it should return -/

/-- The tokens of the samples of a file. -/
def fileSamples (tok : Tok) (text : List UInt8) (seqLen : ℕ) (lineByLine : Bool) : List (List ℤ) :=
  if lineByLine then ((lines false text).map fun line => (encode tok (cstr line)).getD []).filter (· ≠ [])
  else
    let ids := (encode tok (cstr text)).getD []
    (List.range (ids.length / seqLen)).map fun i => (ids.drop (i * seqLen)).take seqLen

/-- Token `j` of sample `s`. -/
def sampleCell (samples : List (List ℤ)) (s j : ℕ) : Option Cell :=
  (samples[s]?.bind fun sample => sample[j]?).map (.token (startOf samples s + j))

/-- The columns that satisfy `columns` are right: the inputs are the tokens of the sample, and the targets the
tokens that follow them. The target in the last column is left open. -/
def RowsCorrect (samples : List (List ℤ)) (start rows seqLen : ℕ) (columns : ℕ → Prop) (b : Batch) : Prop :=
  ∀ i < rows, ∀ j < seqLen, columns j →
    (∃ c, sampleCell samples (start + i) j = some c ∧ (b[i * seqLen + j]?).map Prod.fst = some c) ∧
      (j + 1 < seqLen →
        ∃ c, sampleCell samples (start + i) (j + 1) = some c ∧ (b[i * seqLen + j]?).map Prod.snd = some c)

/-- The call returns tensors that are right in these columns. -/
def BatchCorrect (samples : List (List ℤ)) (alloc : ℕ → Bool) (ds : TextDataset) (start batchSize : ℕ)
    (columns : ℕ → Prop) : Prop :=
  ∃ b, getBatch alloc ds start batchSize = some (some b) ∧
    RowsCorrect samples start (ds.actual start batchSize) ds.seqLen columns b

/-! ## What a dataset holds -/

/-- The samples lie one after another, and all tokens have room in front of the table. -/
structure Holds (ds : TextDataset) (samples : List (List ℤ)) : Prop where
  size : 0 < ds.seqLen
  count : ds.numSamples ≤ samples.length
  offset : ∀ i < ds.numSamples, ds.sampleOffsets[i]? = some (startOf samples i * 4)
  tokens : ∀ i < ds.numSamples, ∀ sample, samples[i]? = some sample → ∀ j < sample.length,
    ds.tokens[startOf samples i + j]? = sample[j]?
  room : ds.tokens.length ≤ ds.fileSize

section

variable {tok : Tok} {text line : List UInt8} {ids : List ℤ}

theorem length_mergePass_le (merges : List Merge) (ids : List ℤ) : (mergePass merges ids).length ≤ ids.length := by
  rw [mergePass]
  induction merges generalizing ids with
  | nil => exact Nat.le_refl _
  | cons m merges ih => exact Nat.le_trans (ih _) (length_applyMerge_le _ _ _ _)

theorem length_mergeAll_le (merges : List Merge) (ids : List ℤ) : (mergeAll merges ids).length ≤ ids.length := by
  induction ids using mergeAll.induct merges with
  | case1 ids hlt ih =>
    rw [mergeAll, if_pos hlt]
    exact Nat.le_trans ih hlt.le
  | case2 ids hlt =>
    rw [mergeAll, if_neg hlt]
    exact length_mergePass_le _ _

theorem length_encode_le (h : encode tok line = some ids) : ids.length ≤ line.length := by
  rw [encode] at h
  split_ifs at h
  rw [← Option.some.inj h]
  exact Nat.le_trans (length_mergeAll_le _ _) (List.length_map _).le

theorem encode_nil (tok : Tok) : encode tok [] = some [] := by
  have hle := length_mergeAll_le tok.merges []
  have hnil : mergeAll tok.merges [] = [] := List.length_eq_zero_iff.mp (Nat.le_zero.mp hle)
  rw [encode, if_pos (by simp), List.map_nil, hnil]

/-- What is packed when these samples have been found. -/
def packedOf (samples : List (List ℤ)) : Packed :=
  ⟨samples.flatten, (List.range samples.length).map fun i => startOf samples i * 4⟩

theorem packLine_packedOf {done : List (List ℤ)} (h : encode tok line = some ids) :
    packLine tok (some (packedOf done)) line = some (packedOf (if ids = [] then done else done ++ [ids])) := by
  rw [packLine, Option.bind_some, h, Option.map_some]
  split_ifs with hnone
  · rfl
  · have hoffsets : (packedOf (done ++ [ids])).offsets =
        (packedOf done).offsets ++ [(packedOf done).tokens.length * 4] := by
      simp only [packedOf, List.length_append, List.length_singleton, List.range_succ, List.map_append,
        List.map_cons, List.map_nil]
      refine congrArg₂ _ (List.map_congr_left fun i hi => ?_) ?_
      · rw [← startOf_take (done ++ [ids]) (List.mem_range.mp hi).le, List.take_left]
      · rw [← startOf_take (done ++ [ids]) (Nat.le_refl _), List.take_left, startOf_length]
    rw [← hoffsets]
    simp [packedOf]

/-- The samples that the loop over the lines finds, until there are enough. -/
theorem foldWhile_packLine {limit : ℕ} {ls : List (List UInt8)} (done : List (List ℤ)) {a : Packed}
    (h : foldWhile (fun acc : Option Packed => acc.all fun a => decide (limit ≤ a.offsets.length)) (packLine tok)
      (some (packedOf done)) ls = some a) :
    ∃ n, a = packedOf (done ++ ((ls.map fun line => (encode tok line).getD []).filter (· ≠ [])).take n) := by
  induction ls generalizing done with
  | nil => exact ⟨0, by rw [List.map_nil, List.filter_nil, List.take_nil, List.append_nil, Option.some.inj h]⟩
  | cons l ls ih =>
    rw [foldWhile] at h
    split_ifs at h with hstop
    · exact ⟨0, by rw [List.take_zero, List.append_nil, Option.some.inj h]⟩
    · cases hids : encode tok l with
      | none =>
        rw [packLine, Option.bind_some, hids, Option.map_none, foldWhile_stop rfl] at h
        simp at h
      | some ids =>
        rw [packLine_packedOf hids] at h
        obtain ⟨n, hn⟩ := ih _ h
        by_cases hnone : ids = []
        · exact ⟨n, by simpa [hids, hnone] using hn⟩
        · exact ⟨n + 1, by simpa [hids, hnone] using hn⟩

theorem packLines_eq {a : Packed} (h : packLines tok text = some a) :
    ∃ n, a = packedOf ((fileSamples tok text 0 true).take n) := by
  rw [packLines, scan_eq] at h
  · obtain ⟨n, hn⟩ := foldWhile_packLine [] h
    refine ⟨n, ?_⟩
    rw [hn, List.nil_append, fileSamples, if_pos rfl, List.map_map]
    rfl
  · intro acc
    cases acc with
    | none => rfl
    | some a => simp [packLine, encode_nil]

/-- An id stands for at least one byte. -/
theorem length_flatten_lines_le (tok : Tok) (text : List UInt8) (n seqLen : ℕ) :
    ((fileSamples tok text seqLen true).take n).flatten.length ≤ text.length := by
  have hlines : ∀ ls : List (List UInt8),
      ((ls.map fun line => (encode tok (cstr line)).getD []).filter (· ≠ [])).flatten.length ≤ ls.flatten.length := by
    intro ls
    induction ls with
    | nil => simp
    | cons l ls ih =>
      have hle : ((encode tok (cstr l)).getD []).length ≤ l.length := by
        cases hids : encode tok (cstr l) with
        | none => simp
        | some ids => exact Nat.le_trans (length_encode_le hids) (List.takeWhile_sublist _).length_le
      by_cases hnone : (encode tok (cstr l)).getD [] = []
      · simp only [List.map_cons, hnone, ne_eq, not_true, decide_false, Bool.false_eq_true, not_false_eq_true,
          List.filter_cons_of_neg, List.flatten_cons, List.length_append] at ih ⊢
        omega
      · simp only [List.map_cons, ne_eq, hnone, not_false_eq_true, decide_true, List.filter_cons_of_pos,
          List.flatten_cons, List.length_append] at ih ⊢
        omega
  have htake : ((fileSamples tok text seqLen true).take n).flatten.length ≤
      (fileSamples tok text seqLen true).flatten.length := (List.take_sublist _ _).flatten.length_le
  refine htake.trans ((hlines _).trans ?_)
  simpa [lines, normalized] using length_flatten_linesFrom [] text

theorem holds_packLines {a : Packed} {seqLen : ℕ} (hsize : 0 < seqLen) (h : packLines tok text = some a) :
    Holds ⟨text.length, a.tokens, a.offsets, seqLen⟩ (fileSamples tok text seqLen true) := by
  obtain ⟨n, rfl⟩ := packLines_eq h
  have hcount : ∀ i, i < (packedOf ((fileSamples tok text 0 true).take n)).offsets.length →
      i < n ∧ i < (fileSamples tok text 0 true).length := fun i hi => by simpa [packedOf] using hi
  refine ⟨hsize, ?_, fun i hi => ?_, fun i hi sample hsample j hj => ?_, length_flatten_lines_le tok text n seqLen⟩
  · rw [TextDataset.numSamples, packedOf, List.length_map, List.length_range, List.length_take]
    exact Nat.min_le_right _ _
  · have hi' : i < ((fileSamples tok text 0 true).take n).length := by simpa using hcount i hi
    simp only [packedOf, List.getElem?_map, List.getElem?_range hi', Option.map_some]
    rw [startOf_take _ (hcount i hi).1.le]
    rfl
  · have hsample' : ((fileSamples tok text 0 true).take n)[i]? = some sample := by
      rw [List.getElem?_take_of_lt (hcount i hi).1]
      exact hsample
    rw [← startOf_take _ (hcount i hi).1.le]
    exact getElem?_flatten hsample' hj

theorem holds_packChunks {a : Packed} {seqLen : ℕ} (hsize : 0 < seqLen) (h : packChunks tok text seqLen = some a) :
    Holds ⟨text.length, a.tokens, a.offsets, seqLen⟩ (fileSamples tok text seqLen false) := by
  obtain ⟨ids, hids, h⟩ := Option.bind_eq_some_iff.mp h
  split_ifs at h with hnone
  obtain rfl := Option.some.inj h
  have hsamples : fileSamples tok text seqLen false =
      (List.range (ids.length / seqLen)).map fun i => (ids.drop (i * seqLen)).take seqLen := by
    rw [fileSamples, if_neg (by simp), hids, Option.getD_some]
  have hlen : ∀ sample ∈ fileSamples tok text seqLen false, sample.length = seqLen := by
    intro sample hsample
    rw [hsamples] at hsample
    obtain ⟨i, hi, rfl⟩ := List.mem_map.mp hsample
    have hle : (i + 1) * seqLen ≤ ids.length :=
      (Nat.mul_le_mul_right _ (List.mem_range.mp hi)).trans (Nat.div_mul_le_self _ _)
    rw [Nat.succ_mul] at hle
    rw [List.length_take, List.length_drop]
    omega
  have hcount : (fileSamples tok text seqLen false).length = ids.length / seqLen := by
    rw [hsamples, List.length_map, List.length_range]
  have hstart : ∀ i < ids.length / seqLen, startOf (fileSamples tok text seqLen false) i = i * seqLen :=
    fun i hi => startOf_of_length hlen (hcount ▸ hi.le)
  have hoffsets : ∀ i, i < ((List.range (ids.length / seqLen)).map fun i => i * seqLen * 4).length →
      i < ids.length / seqLen := fun i hi => by simpa using hi
  refine ⟨hsize, ?_, fun i hi => ?_, fun i hi sample hsample j hj => ?_, ?_⟩
  · rw [hcount]
    simp [TextDataset.numSamples]
  · rw [hstart i (hoffsets i hi), List.getElem?_map, List.getElem?_range (hoffsets i hi), Option.map_some]
  · rw [hstart i (hoffsets i hi)]
    rw [hsamples, List.getElem?_map, List.getElem?_range (hoffsets i hi), Option.map_some] at hsample
    obtain rfl := Option.some.inj hsample
    have hlt : j < seqLen := hj.trans_le (List.length_take_le _ _)
    rw [List.getElem?_take_of_lt hlt, List.getElem?_drop]
  · exact (length_encode_le hids).trans (List.takeWhile_sublist _).length_le

theorem create_holds {ds : TextDataset} {seqLen : ℕ} {lineByLine : Bool}
    (h : create tok text seqLen lineByLine = some ds) :
    Holds ds (fileSamples tok text seqLen lineByLine) ∧ ds.seqLen = seqLen := by
  rw [create] at h
  split_ifs at h with hnull hline
  · obtain ⟨a, ha, rfl⟩ := Option.map_eq_some_iff.mp h
    exact ⟨hline ▸ holds_packLines (by omega) ha, rfl⟩
  · obtain ⟨a, ha, rfl⟩ := Option.map_eq_some_iff.mp h
    rw [Bool.not_eq_true] at hline
    exact ⟨hline ▸ holds_packChunks (by omega) ha, rfl⟩

end

/-! ## What a batch holds -/

section

variable {ds : TextDataset} {samples : List (List ℤ)} {start : ℕ} {b b' : Batch}

theorem src_eq_token {k k' : ℕ} {id : ℤ} (h : ds.src k = some (.token k' id)) : k = k' := by
  rw [TextDataset.src] at h
  split at h
  · simp_all
  · split_ifs at h <;> simp at h

theorem sampleCell_eq_some {s j : ℕ} {c : Cell} (h : sampleCell samples s j = some c) :
    ∃ sample id, samples[s]? = some sample ∧ sample[j]? = some id ∧ c = .token (startOf samples s + j) id := by
  obtain ⟨id, hid, rfl⟩ := Option.map_eq_some_iff.mp h
  obtain ⟨sample, hsample, hid⟩ := Option.bind_eq_some_iff.mp hid
  exact ⟨sample, id, hsample, hid, rfl⟩

/-- What is copied for a row is behind the start of its sample. -/
theorem copyRow_mem {offset row columns j : ℕ} (h : copyRow ds offset row columns j b = some b') {c : Cell}
    (hc : c ∈ b'.map Prod.fst) :
    c ∈ b.map Prod.fst ∨ ∃ k, j ≤ k ∧ k < j + columns ∧ ds.src (offset + k) = some c := by
  induction columns generalizing j b with
  | zero =>
    obtain rfl := Option.some.inj h
    exact .inl hc
  | succ columns ih =>
    rw [copyRow] at h
    split_ifs at h with hbound
    · obtain ⟨b₁, hcopy, h⟩ := Option.bind_eq_some_iff.mp h
      rcases ih h with hmem | ⟨k, hk, hlt, hsrc⟩
      · rw [copyToken] at hcopy
        split_ifs at hcopy with hplace
        obtain ⟨x, hx, hcopy⟩ := Option.bind_eq_some_iff.mp hcopy
        obtain ⟨y, -, rfl⟩ := Option.map_eq_some_iff.mp hcopy
        rw [List.map_set] at hmem
        rcases List.mem_or_eq_of_mem_set hmem with hmem | rfl
        · exact .inl hmem
        · exact .inr ⟨j, Nat.le_refl _, by omega, hx⟩
      · exact .inr ⟨k, by omega, by omega, hsrc⟩
    · obtain rfl := Option.some.inj h
      exact .inl hc

theorem Holds.offsetAt (h : Holds ds samples) {i : ℕ} (hi : i < ds.numSamples) :
    ds.offsetAt i = some (startOf samples i * 4) := by
  rw [TextDataset.offsetAt, h.offset i hi]

theorem offsetAt_of_le {i off : ℕ} (hi : ds.numSamples ≤ i) (h : ds.offsetAt i = some off) : off = 0 := by
  rw [TextDataset.offsetAt, List.getElem?_eq_none hi] at h
  split_ifs at h
  exact (Option.some.inj h).symm

/-- All inputs that are copied are tokens of the sample of some row, or come from the start of the dataset. -/
theorem copyRows_mem (hholds : Holds ds samples) {rows : ℕ} (h : copyRows ds start rows b = some b') {c : Cell}
    (hc : c ∈ b'.map Prod.fst) :
    c ∈ b.map Prod.fst ∨ ∃ i k, k + 1 < ds.seqLen ∧
      (ds.src (startOf samples (start + i) + k) = some c ∨ ds.src k = some c) := by
  induction rows generalizing b' with
  | zero =>
    obtain rfl := Option.some.inj h
    exact .inl hc
  | succ rows ih =>
    obtain ⟨b₁, hrows, h⟩ := Option.bind_eq_some_iff.mp h
    obtain ⟨off, hoff, hrow⟩ := Option.bind_eq_some_iff.mp h
    rcases copyRow_mem hrow hc with hmem | ⟨k, -, hk, hsrc⟩
    · exact ih hrows hmem
    · refine .inr ⟨rows, k, by omega, ?_⟩
      by_cases hsample : start + rows < ds.numSamples
      · obtain rfl := Option.some.inj ((hholds.offsetAt hsample).symm.trans hoff)
        rw [Nat.mul_div_cancel _ (by omega)] at hsrc
        exact .inl hsrc
      · obtain rfl := offsetAt_of_le (Nat.not_lt.mp hsample) hoff
        rw [Nat.zero_div, Nat.zero_add] at hsrc
        exact .inr hsrc

/-- The last input of the first row is not copied. -/
theorem not_rowsCorrect (hholds : Holds ds samples) {rows : ℕ} (hrows : 0 < rows) {n : ℕ}
    (h : copyRows ds start rows (List.replicate n (.cleared, .cleared)) = some b) :
    ¬ RowsCorrect samples start rows ds.seqLen (fun _ => True) b := by
  intro hcorrect
  have hsize := hholds.size
  obtain ⟨⟨c, hcell, hplace⟩, -⟩ := hcorrect 0 hrows (ds.seqLen - 1) (by omega) trivial
  obtain ⟨sample, id, hsample, hid, rfl⟩ := sampleCell_eq_some hcell
  have hlong : ds.seqLen - 1 < sample.length := (List.getElem?_eq_some_iff.mp hid).1
  have hmem : Cell.token (startOf samples (start + 0) + (ds.seqLen - 1)) id ∈ b.map Prod.fst := by
    obtain ⟨xy, hxy, hfst⟩ := Option.map_eq_some_iff.mp hplace
    exact List.mem_map.mpr ⟨xy, List.mem_of_getElem? hxy, hfst⟩
  rcases copyRows_mem hholds h hmem with hinit | ⟨i, k, hk, hsrc | hsrc⟩
  · simp at hinit
  · have hpos := src_eq_token hsrc
    by_cases hi : i = 0
    · subst hi
      omega
    · have hnext := startOf_succ hsample
      have hmono := startOf_mono samples (show start + 0 + 1 ≤ start + i by omega)
      omega
  · have hpos := src_eq_token hsrc
    omega

/-! ## The columns in front of the last one -/

/-- The tokens that the inner loop copies. -/
def Copied (ds : TextDataset) (offset k : ℕ) : Prop := offset + k + 1 < ds.numSamples * ds.seqLen % 2 ^ 64

/-- The place `p` holds the token at `k` and its successor. -/
def HoldsPair (ds : TextDataset) (k p : ℕ) (b : Batch) : Prop :=
  ∃ x y, ds.src k = some x ∧ ds.src (k + 1) = some y ∧ b[p]? = some (x, y)

theorem copyRow_spec {offset row columns j : ℕ} (hplace : row * ds.seqLen + j + columns ≤ 2 ^ 64)
    (h : copyRow ds offset row columns j b = some b') :
    b'.length = b.length ∧
      (∀ k, j ≤ k → k < j + columns → Copied ds offset k → HoldsPair ds (offset + k) (row * ds.seqLen + k) b') ∧
      ∀ p, (∀ k, j ≤ k → k < j + columns → Copied ds offset k → p ≠ row * ds.seqLen + k) → b'[p]? = b[p]? := by
  induction columns generalizing j b with
  | zero =>
    obtain rfl := Option.some.inj h
    exact ⟨rfl, fun k hk hlt => absurd hlt (by omega), fun p _ => rfl⟩
  | succ columns ih =>
    rw [copyRow] at h
    split_ifs at h with hbound
    · obtain ⟨b₁, hcopy, h⟩ := Option.bind_eq_some_iff.mp h
      obtain ⟨hlen, hrow, hframe⟩ := ih (by omega) h
      rw [Nat.mod_eq_of_lt (by omega), copyToken] at hcopy
      split_ifs at hcopy with hroom
      obtain ⟨x, hx, hcopy⟩ := Option.bind_eq_some_iff.mp hcopy
      obtain ⟨y, hy, rfl⟩ := Option.map_eq_some_iff.mp hcopy
      refine ⟨hlen.trans List.length_set, fun k hk hlt hcopied => ?_, fun p hp => ?_⟩
      · rcases Nat.eq_or_lt_of_le hk with rfl | hk
        · refine ⟨x, y, hx, hy, ?_⟩
          rw [hframe _ fun k hk _ _ => by omega, List.getElem?_set_self hroom]
        · exact hrow k hk (by omega) hcopied
      · rw [hframe p fun k hk hlt => hp k (by omega) (by omega), List.getElem?_set_ne]
        exact (hp j (Nat.le_refl _) (by omega) hbound).symm
    · obtain rfl := Option.some.inj h
      exact ⟨rfl, fun k hk _ hcopied => absurd hcopied (by rw [Copied]; omega), fun p _ => rfl⟩

theorem copyRow_total {offset row columns j : ℕ} (hplace : row * ds.seqLen + j + columns ≤ 2 ^ 64)
    (hroom : row * ds.seqLen + j + columns ≤ b.length)
    (hsrc : ∀ k, j ≤ k → k < j + columns → (ds.src (offset + k)).isSome ∧ (ds.src (offset + k + 1)).isSome) :
    ∃ b', copyRow ds offset row columns j b = some b' := by
  induction columns generalizing j b with
  | zero => exact ⟨b, rfl⟩
  | succ columns ih =>
    rw [copyRow]
    split_ifs with hbound
    · obtain ⟨hx, hy⟩ := hsrc j (Nat.le_refl _) (by omega)
      obtain ⟨x, hx⟩ := Option.isSome_iff_exists.mp hx
      obtain ⟨y, hy⟩ := Option.isSome_iff_exists.mp hy
      rw [copyToken, Nat.mod_eq_of_lt (by omega), if_pos (by omega), hx, hy]
      exact ih (by omega) (by rw [List.length_set]; omega) fun k hk hlt => hsrc k (by omega) (by omega)
    · exact ⟨b, rfl⟩

/-- Places of different rows are different. -/
theorem place_ne {S i i' j j' : ℕ} (hi : i < i') (hj : j < S) : i * S + j ≠ i' * S + j' := by
  have hle : (i + 1) * S ≤ i' * S := Nat.mul_le_mul_right S hi
  rw [Nat.succ_mul] at hle
  omega

theorem copyRows_spec (hholds : Holds ds samples) {rows : ℕ} (hrows : start + rows ≤ ds.numSamples)
    (hplace : rows * ds.seqLen ≤ 2 ^ 64) (h : copyRows ds start rows b = some b') :
    b'.length = b.length ∧
      (∀ i < rows, ∀ k, k + 1 < ds.seqLen → Copied ds (startOf samples (start + i)) k →
        HoldsPair ds (startOf samples (start + i) + k) (i * ds.seqLen + k) b') ∧
      ∀ p, (∀ i < rows, ∀ k, k + 1 < ds.seqLen → Copied ds (startOf samples (start + i)) k →
        p ≠ i * ds.seqLen + k) → b'[p]? = b[p]? := by
  have hsize := hholds.size
  induction rows generalizing b' with
  | zero =>
    obtain rfl := Option.some.inj h
    exact ⟨rfl, fun i hi => absurd hi (Nat.not_lt_zero _), fun p _ => rfl⟩
  | succ rows ih =>
    rw [Nat.succ_mul] at hplace
    obtain ⟨b₁, hbefore, h⟩ := Option.bind_eq_some_iff.mp h
    rw [hholds.offsetAt (by omega), Option.bind_some, Nat.mul_div_cancel _ (by omega)] at h
    obtain ⟨hlen, hpairs, hframe⟩ := ih (by omega) (by omega) hbefore
    obtain ⟨hlen', hpairs', hframe'⟩ := copyRow_spec (by omega) h
    refine ⟨hlen'.trans hlen, fun i hi k hk hcopied => ?_, fun p hp => ?_⟩
    · rcases Nat.lt_succ_iff_lt_or_eq.mp hi with hi | rfl
      · obtain ⟨x, y, hx, hy, hxy⟩ := hpairs i hi k hk hcopied
        refine ⟨x, y, hx, hy, ?_⟩
        rw [hframe' _ fun k' _ _ _ => place_ne hi (by omega), hxy]
      · exact hpairs' k (Nat.zero_le _) (by omega) hcopied
    · rw [hframe' p fun k _ hk hcopied => hp rows (Nat.lt_succ_self _) k (by omega) hcopied]
      exact hframe p fun i hi => hp i (by omega)

theorem copyRows_total (hholds : Holds ds samples) {rows : ℕ} (hrows : start + rows ≤ ds.numSamples)
    (hplace : rows * ds.seqLen ≤ 2 ^ 64) (hroom : rows * ds.seqLen ≤ b.length)
    (hsrc : ∀ i < rows, ∀ k, k + 1 < ds.seqLen → (ds.src (startOf samples (start + i) + k)).isSome ∧
      (ds.src (startOf samples (start + i) + k + 1)).isSome) :
    ∃ b', copyRows ds start rows b = some b' := by
  have hsize := hholds.size
  induction rows with
  | zero => exact ⟨b, rfl⟩
  | succ rows ih =>
    rw [Nat.succ_mul] at hplace hroom
    obtain ⟨b₁, hbefore⟩ := ih (by omega) (by omega) (by omega) fun i hi => hsrc i (by omega)
    have hlen := (copyRows_spec hholds (by omega) (by omega) hbefore).1
    rw [copyRows, hbefore, Option.bind_some, hholds.offsetAt (by omega), Option.bind_some,
      Nat.mul_div_cancel _ (by omega)]
    exact copyRow_total (by omega) (by omega) fun k _ hk => hsrc rows (Nat.lt_succ_self _) k (by omega)

theorem Holds.src_eq (h : Holds ds samples) {s j : ℕ} {sample : List ℤ} (hs : s < ds.numSamples)
    (hsample : samples[s]? = some sample) (hj : j < sample.length) :
    ∃ c, ds.src (startOf samples s + j) = some c ∧ sampleCell samples s j = some c := by
  have htoken := h.tokens s hs sample hsample j hj
  rw [List.getElem?_eq_getElem hj] at htoken
  refine ⟨.token (startOf samples s + j) sample[j], ?_, ?_⟩
  · rw [TextDataset.src, htoken]
  · rw [sampleCell, hsample, Option.bind_some, List.getElem?_eq_getElem hj, Option.map_some]

/-- Each row has a sample that fills it, and that is not cut off by the bound on the tokens. -/
def Fills (ds : TextDataset) (samples : List (List ℤ)) (start rows : ℕ) : Prop :=
  ∀ i < rows, ∀ sample, samples[start + i]? = some sample →
    ds.seqLen ≤ sample.length ∧ startOf samples (start + i) + ds.seqLen ≤ ds.numSamples * ds.seqLen

theorem Fills.copyRows {rows : ℕ} (hfills : Fills ds samples start rows) (hholds : Holds ds samples)
    (hrows : start + rows ≤ ds.numSamples) (hwrap : ds.numSamples * ds.seqLen < 2 ^ 64)
    (hroom : rows * ds.seqLen ≤ b.length) :
    ∃ b', copyRows ds start rows b = some b' ∧
      RowsCorrect samples start rows ds.seqLen (fun j => j + 1 < ds.seqLen) b' := by
  have hplace : rows * ds.seqLen ≤ 2 ^ 64 :=
    (Nat.mul_le_mul_right _ (Nat.le_trans (Nat.le_add_left _ _) hrows)).trans hwrap.le
  have hsample : ∀ i < rows, ∃ sample, samples[start + i]? = some sample := fun i hi =>
    ⟨_, List.getElem?_eq_getElem (by have hcount := hholds.count; omega)⟩
  obtain ⟨b', hb'⟩ := copyRows_total hholds hrows hplace hroom fun i hi k hk => by
    obtain ⟨sample, hs⟩ := hsample i hi
    have hlong := (hfills i hi sample hs).1
    obtain ⟨c, hc, -⟩ := hholds.src_eq (s := start + i) (j := k) (by omega) hs (by omega)
    obtain ⟨d, hd, -⟩ := hholds.src_eq (s := start + i) (j := k + 1) (by omega) hs (by omega)
    rw [← Nat.add_assoc] at hd
    simp [hc, hd]
  refine ⟨b', hb', fun i hi j _ hj => ?_⟩
  obtain ⟨sample, hs⟩ := hsample i hi
  obtain ⟨hlong, hbound⟩ := hfills i hi sample hs
  have hcopied : Copied ds (startOf samples (start + i)) j := by
    rw [Copied, Nat.mod_eq_of_lt hwrap]
    omega
  obtain ⟨x, y, hx, hy, hxy⟩ := (copyRows_spec hholds hrows hplace hb').2.1 i hi j hj hcopied
  obtain ⟨c, hc, hcell⟩ := hholds.src_eq (s := start + i) (j := j) (by omega) hs (by omega)
  obtain ⟨d, hd, hcell'⟩ := hholds.src_eq (s := start + i) (j := j + 1) (by omega) hs (by omega)
  rw [hc] at hx
  rw [← Nat.add_assoc, hy] at hd
  rw [hxy]
  exact ⟨⟨c, hcell, by rw [Option.map_some, Option.some.inj hx]⟩,
    fun _ => ⟨d, hcell', by rw [Option.map_some, Option.some.inj hd]⟩⟩

/-- If the row is right up to its last column but one, then the target there has been copied. -/
theorem fills_of_rowsCorrect {rows n : ℕ} (hholds : Holds ds samples) (hrows : start + rows ≤ ds.numSamples)
    (hwrap : ds.numSamples * ds.seqLen < 2 ^ 64) (hone : ds.seqLen ≠ 1)
    (h : copyRows ds start rows (List.replicate n (.cleared, .cleared)) = some b)
    (hcorrect : RowsCorrect samples start rows ds.seqLen (fun j => j + 1 < ds.seqLen) b) :
    Fills ds samples start rows := by
  have hsize := hholds.size
  have hplace : rows * ds.seqLen ≤ 2 ^ 64 :=
    (Nat.mul_le_mul_right _ (Nat.le_trans (Nat.le_add_left _ _) hrows)).trans hwrap.le
  intro i hi sample hsample
  obtain ⟨-, htarget⟩ := hcorrect i hi (ds.seqLen - 2) (by omega) (by omega)
  obtain ⟨c, hcell, hc⟩ := htarget (by omega)
  obtain ⟨sample', id, hsample', hid, rfl⟩ := sampleCell_eq_some hcell
  obtain rfl := Option.some.inj (hsample.symm.trans hsample')
  have hlong : ds.seqLen - 2 + 1 < sample.length := (List.getElem?_eq_some_iff.mp hid).1
  refine ⟨by omega, ?_⟩
  by_contra hbound
  have hframe : b[i * ds.seqLen + (ds.seqLen - 2)]? =
      (List.replicate n (Cell.cleared, Cell.cleared))[i * ds.seqLen + (ds.seqLen - 2)]? := by
    refine (copyRows_spec hholds hrows hplace h).2.2 _ fun i' hi' k hk hcopied heq => ?_
    rcases Nat.lt_trichotomy i i' with hlt | rfl | hlt
    · exact place_ne hlt (by omega) heq
    · rw [Copied, Nat.mod_eq_of_lt hwrap] at hcopied
      omega
    · exact place_ne hlt (by omega) heq.symm
  obtain ⟨xy, hxy, hsnd⟩ := Option.map_eq_some_iff.mp hc
  rw [hframe] at hxy
  have hcleared := List.eq_of_mem_replicate (List.mem_of_getElem? hxy)
  rw [hcleared] at hsnd
  simp at hsnd

/-! ## The batch -/

/-- What `get_batch` does if there are rows and memory. -/
theorem batchCorrect_iff {alloc : ℕ → Bool} {batchSize : ℕ} (hstart : start < ds.numSamples)
    (halloc : alloc (ds.tensorBytes (ds.actual start batchSize)) = true) (columns : ℕ → Prop) :
    BatchCorrect samples alloc ds start batchSize columns ↔
      ∃ b, copyRows ds start (ds.actual start batchSize)
          (List.replicate (ds.tensorBytes (ds.actual start batchSize) / 4) (.cleared, .cleared)) = some b ∧
        RowsCorrect samples start (ds.actual start batchSize) ds.seqLen columns b := by
  have hbatch : getBatch alloc ds start batchSize = (copyRows ds start (ds.actual start batchSize)
      (List.replicate (ds.tensorBytes (ds.actual start batchSize) / 4) (.cleared, .cleared))).map some := by
    rw [getBatch, if_neg (by omega), if_neg (by simp [halloc])]
  simp only [BatchCorrect, hbatch, Option.map_eq_some_iff, Option.some.injEq, exists_eq_right]

/-- The last column is never right. -/
theorem all_columns_iff {alloc : ℕ → Bool} {batchSize : ℕ} (hholds : Holds ds samples)
    (hstart : start < ds.numSamples) (halloc : alloc (ds.tensorBytes (ds.actual start batchSize)) = true) :
    BatchCorrect samples alloc ds start batchSize (fun _ => True) ↔ batchSize = 0 := by
  rw [batchCorrect_iff hstart halloc]
  constructor
  · rintro ⟨b, hb, hrows⟩
    by_contra hzero
    refine not_rowsCorrect hholds ?_ hb hrows
    rw [TextDataset.actual]
    split_ifs <;> omega
  · rintro rfl
    have hactual : ds.actual start 0 = 0 := by
      rw [TextDataset.actual, if_neg]
      have hle := Nat.mod_le (start + 0) (2 ^ 64)
      omega
    rw [hactual]
    exact ⟨_, rfl, fun i hi => absurd hi (Nat.not_lt_zero _)⟩

/-- The other columns are right if each row has a sample that is long enough and not cut off. -/
theorem other_columns_iff {alloc : ℕ → Bool} {batchSize : ℕ} (hholds : Holds ds samples)
    (hstart : start < ds.numSamples) (halloc : alloc (ds.tensorBytes (ds.actual start batchSize)) = true)
    (hsum : start + batchSize < 2 ^ 64) (hwrap : ds.numSamples * ds.seqLen * 4 < 2 ^ 64) :
    BatchCorrect samples alloc ds start batchSize (fun j => j + 1 < ds.seqLen) ↔
      ds.seqLen = 1 ∨ Fills ds samples start (ds.actual start batchSize) := by
  have hactual : start + ds.actual start batchSize ≤ ds.numSamples := by
    rw [TextDataset.actual, Nat.mod_eq_of_lt hsum]
    split_ifs <;> omega
  have hle : ds.actual start batchSize * ds.seqLen ≤ ds.numSamples * ds.seqLen :=
    Nat.mul_le_mul_right _ (Nat.le_trans (Nat.le_add_left _ _) hactual)
  have hroom : ds.tensorBytes (ds.actual start batchSize) / 4 = ds.actual start batchSize * ds.seqLen := by
    rw [TextDataset.tensorBytes, Nat.mod_eq_of_lt (a := ds.actual start batchSize * ds.seqLen) (by omega),
      Nat.mod_eq_of_lt (by omega), Nat.mul_div_cancel _ (by omega)]
  rw [batchCorrect_iff hstart halloc, hroom]
  by_cases hone : ds.seqLen = 1
  · simp only [hone, true_or, iff_true]
    obtain ⟨b, hb⟩ := copyRows_total (b := List.replicate (ds.actual start batchSize * ds.seqLen)
      (Cell.cleared, Cell.cleared)) hholds hactual (by omega) (by simp) fun i _ k hk => by omega
    rw [hone] at hb
    exact ⟨b, hb, fun i _ j hj hj' => absurd hj' (by omega)⟩
  · rw [or_iff_right hone]
    constructor
    · rintro ⟨b, hb, hrows⟩
      exact fills_of_rowsCorrect hholds hactual (by omega) hone hb hrows
    · intro hfills
      exact hfills.copyRows hholds hactual (by omega) (by simp)

end

/-- A batch with at least one row is never right, since the last column is not written. The columns in front of
it are right exactly if each row has a sample of at least `seq_len` tokens that is not cut off. -/
theorem batch_correct_iff {tok : Tok} {text : List UInt8} {seqLen : ℕ} {lineByLine : Bool} {ds : TextDataset}
    (hcreate : create tok text seqLen lineByLine = some ds) {alloc : ℕ → Bool} {start batchSize : ℕ}
    (hstart : start < ds.numSamples) (halloc : alloc (ds.tensorBytes (ds.actual start batchSize)) = true) :
    (BatchCorrect (fileSamples tok text seqLen lineByLine) alloc ds start batchSize (fun _ => True) ↔
        batchSize = 0) ∧
      (start + batchSize < 2 ^ 64 → ds.numSamples * seqLen * 4 < 2 ^ 64 →
        (BatchCorrect (fileSamples tok text seqLen lineByLine) alloc ds start batchSize
            (fun j => j + 1 < seqLen) ↔
          seqLen = 1 ∨ Fills ds (fileSamples tok text seqLen lineByLine) start (ds.actual start batchSize))) := by
  obtain ⟨hholds, rfl⟩ := create_holds hcreate
  exact ⟨all_columns_iff hholds hstart halloc, other_columns_iff hholds hstart halloc⟩

/-- The tokenizer before any training. -/
def byteTok : Tok := Tokenizer.create (fun _ => 0) 256

theorem encode_ab : encode byteTok [97, 98] = some [97, 98] := by
  have hids : [97, 98].map (byteId byteTok) = [97, 98] := by decide
  rw [encode, if_pos (by decide), hids]
  simp [byteTok, Tokenizer.create, mergeAll, mergePass]

/-- A line of two tokens. -/
theorem create_ab : create byteTok [97, 98, 10] 2 true = some ⟨3, [97, 98], [0], 2⟩ := by
  simp [create, packLines, scan, cstr, packLine, encode_ab]

theorem batch_correct_iff_ab :
    (BatchCorrect (fileSamples byteTok [97, 98, 10] 2 true) (fun _ => true) ⟨3, [97, 98], [0], 2⟩ 0 1
        (fun _ => True) ↔ 1 = 0) ∧
      (0 + 1 < 2 ^ 64 → TextDataset.numSamples ⟨3, [97, 98], [0], 2⟩ * 2 * 4 < 2 ^ 64 →
        (BatchCorrect (fileSamples byteTok [97, 98, 10] 2 true) (fun _ => true) ⟨3, [97, 98], [0], 2⟩ 0 1
            (fun j => j + 1 < 2) ↔
          2 = 1 ∨ Fills ⟨3, [97, 98], [0], 2⟩ (fileSamples byteTok [97, 98, 10] 2 true) 0
            (TextDataset.actual ⟨3, [97, 98], [0], 2⟩ 0 1))) :=
  batch_correct_iff create_ab (by decide) rfl

/-- The second input of the only row stays cleared. -/
theorem not_batchCorrect_ab :
    ∃ ds, create byteTok [97, 98, 10] 2 true = some ds ∧
      ¬ BatchCorrect (fileSamples byteTok [97, 98, 10] 2 true) (fun _ => true) ds 0 1 (fun _ => True) := by
  refine ⟨_, create_ab, ?_⟩
  rintro ⟨b, hb, hrows⟩
  have hcells : getBatch (fun _ => true) ⟨3, [97, 98], [0], 2⟩ 0 1 =
      some (some [(.token 0 97, .token 1 98), (.cleared, .cleared)]) := by rfl
  rw [hcells] at hb
  obtain rfl := Option.some.inj (Option.some.inj hb)
  obtain ⟨⟨c, hcell, hc⟩, -⟩ := hrows 0 (by decide) 1 (by decide) trivial
  obtain ⟨sample, id, -, -, rfl⟩ := sampleCell_eq_some hcell
  simp at hc

end SneppxAlg.TextData
