import Mathlib.Data.List.GetD
import Mathlib.Data.List.TakeWhile
import Mathlib.Order.MinMax
import SneppxAlg.Kernel.DataPipeline
import SneppxAlg.Lib.LineScan
import SneppxAlg.Lib.Segments

/-!
# Loading a CSV file

`parse_csv_line` and `SNEPPX_data_pipeline_load` of `kernel/data/data_pipeline.c`. The text is cut into lines
at LF, CR and CR LF, and the numbers of each line are read with `strtod`. The table for them has as many rows
as there are LF in the text, of 1024 places each. Its rows are all read at the width of the widest.

So rows are missing if there are not enough LF, rows that are narrower than others are filled up with zeros,
the numbers behind the first 1024 are missing, and a line that goes on with something else than a number gets
a zero (`load_correct_iff`).

`strtod` is a parameter. Storage is taken as available.
-/

namespace SneppxAlg.DataPipeline

open Lib.LineScan

variable {V : Type*}

/-- A `float` in the table. `none` is a zero that no number of the text stands for: one that `strtod` has
returned without a conversion, or one of the cleared memory. -/
abbrev Cell (V : Type*) := Option V

/-- The value of the number at the start of a string, and how many bytes it has: 0 if there is none. -/
abbrev Strtod (V : Type*) := List UInt8 → V × ℕ

def isBlank (c : UInt8) : Bool := c = 32 || c = 9

def isSeparator (c : UInt8) : Bool := c = 44 || c = 32 || c = 9

variable (strtod : Strtod V)

/-- The loop of `parse_csv_line`, with the number of columns that are left. -/
def parseCsvLine : ℕ → List UInt8 → List (Cell V)
  | 0, _ => []
  | room + 1, p =>
    match p.dropWhile isBlank with
    | [] => []
    | c :: p =>
      if c = 10 ∨ c = 13 then []
      else
        match strtod (c :: p) with
        | (_, 0) => [none]
        | (v, k + 1) => some v :: parseCsvLine room (((c :: p).drop (k + 1)).dropWhile isSeparator)

/-- The row of a line: none for a blank line and for a comment. -/
def csvRow (line : List UInt8) : Option (List (Cell V)) :=
  if line = [] ∨ line.head? = some 35 then none
  else if parseCsvLine strtod 1024 line = [] then none
  else some (parseCsvLine strtod 1024 line)

/-- The table `temp`, as far as it is filled. -/
def csvTable (text : List UInt8) : List (List (Cell V)) :=
  scan true (fun rows : List (List (Cell V)) => decide (text.count 10 ≤ rows.length))
    (fun rows line => rows ++ (csvRow strtod line).toList) text.length (text.length + 1) (text ++ [0]) 0 0 []

/-- `max_cols`. -/
def maxCols (rows : List (List (Cell V))) : ℕ := rows.foldl (fun m row => max m row.length) 0

/-- `SNEPPX_data_pipeline_load` for a file with these bytes. -/
def load (text : List UInt8) (p : Pipeline (Cell V)) : Option (Pipeline (Cell V)) :=
  if text.count 10 = 0 then none
  else
    let temp := csvTable strtod text
    if temp = [] ∨ maxCols temp < 2 then none
    else
      let numFeatures := maxCols temp - 1
      some
        { p with
          dataBuffer := temp.flatMap fun row => (List.range numFeatures).map fun j => row.getD j none
          labelBuffer := temp.map fun row => row.getD numFeatures none
          numSamples := temp.length
          numFeatures := numFeatures
          numLabels := 1
          shuffleIndices := some (List.range temp.length)
          currentPos := 0 }

/-! ## What it should load -/

/-- The numbers at the start of a string, one after another, and what follows them. -/
def numbers : ℕ → List UInt8 → List V × List UInt8
  | 0, s => ([], s)
  | n + 1, s =>
    match s.dropWhile isSeparator with
    | [] => ([], [])
    | c :: s =>
      match strtod (c :: s) with
      | (_, 0) => ([], c :: s)
      | (v, k + 1) => (v :: (numbers n ((c :: s).drop (k + 1))).1, (numbers n ((c :: s).drop (k + 1))).2)

def lineNumbers (line : List UInt8) : List V := (numbers strtod line.length line).1

/-- What follows the numbers of a line: nothing, if all of it is numbers. -/
def afterNumbers (line : List UInt8) : List UInt8 := (numbers strtod line.length line).2

/-- The lines of a text, whatever their ends, without the comments. -/
def csvLines (text : List UInt8) : List (List UInt8) :=
  ((lines true text).map cstr).filter fun line => line.head? ≠ some 35

def dataRows (text : List UInt8) : List (List V) := ((csvLines text).map (lineNumbers strtod)).filter (· ≠ [])

/-- The samples of a pipeline, in the order of its buffers. -/
def Pipeline.samples (p : Pipeline V) : List (Row V) := (List.range p.numSamples).map p.row

/-- The sample of a data row: its last number is the label. -/
def sampleOf (row : List V) : Row (Cell V) := ⟨row.dropLast.map some, [row.getLast?]⟩

/-- If some row has two numbers or more, then the text is loaded, and what is loaded is one sample for each
data row. -/
def LoadCorrect (text : List UInt8) (p : Pipeline (Cell V)) : Prop :=
  ((∃ row ∈ dataRows strtod text, 2 ≤ row.length) → (load strtod text p).isSome = true) ∧
    ∀ q, load strtod text p = some q → q.samples = (dataRows strtod text).map sampleOf

/-- The lines with something else than blanks. -/
def tokenLines (text : List UInt8) : List (List UInt8) :=
  (csvLines text).filter fun line => line.dropWhile isBlank ≠ []

/-- There is no comma in front of the first number. -/
def StartsWithNumber (line : List UInt8) : Prop := (line.dropWhile isBlank).head? ≠ some 44

/-- The first 1024 columns of a line are numbers. -/
def Clean (line : List UInt8) : Prop :=
  StartsWithNumber line ∧ (afterNumbers strtod line = [] ∨ 1024 ≤ (lineNumbers strtod line).length)

/-- The table has a row for each data row, and all of them have one width that fits. -/
structure Uniform (text : List UInt8) : Prop where
  clean : ∀ line ∈ (tokenLines text).take (text.count 10), Clean strtod line
  enough : (dataRows strtod text).length ≤ text.count 10
  width : ∃ w ≤ 1024, ∀ row ∈ dataRows strtod text, row.length = w

/-- No line of the table goes on behind a single number. -/
def SingleNumbers (text : List UInt8) : Prop :=
  ∀ line ∈ (tokenLines text).take (text.count 10), StartsWithNumber line → (lineNumbers strtod line).length = 1 →
    afterNumbers strtod line = []

/-! ## The columns of a line -/

section

variable {strtod} {line s : List UInt8}

theorem not_isSeparator_of_dropWhile {c : UInt8} {rest : List UInt8} (h : s.dropWhile isSeparator = c :: rest) :
    isSeparator c = false := by
  have hhead := List.head?_dropWhile_not isSeparator s
  rw [h] at hhead
  simpa using hhead

theorem dropWhile_separator_of_startsWithNumber (h : StartsWithNumber s) :
    s.dropWhile isSeparator = s.dropWhile isBlank := by
  induction s with
  | nil => rfl
  | cons c s ih =>
    by_cases hc : isBlank c = true
    · have hsep : isSeparator c = true := by
        simp only [isBlank, isSeparator, Bool.or_eq_true, decide_eq_true_eq] at hc ⊢
        tauto
      rw [StartsWithNumber, List.dropWhile_cons_of_pos hc] at h
      rw [List.dropWhile_cons_of_pos hc, List.dropWhile_cons_of_pos hsep, ih h]
    · rw [StartsWithNumber, List.dropWhile_cons_of_neg hc] at h
      have hne : c ≠ 44 := by simpa using h
      have hsep : ¬ isSeparator c = true := by
        simp only [isBlank, isSeparator, Bool.or_eq_true, decide_eq_true_eq] at hc ⊢
        tauto
      rw [List.dropWhile_cons_of_neg hc, List.dropWhile_cons_of_neg hsep]

theorem dropWhile_blank_separator (s : List UInt8) :
    (s.dropWhile isSeparator).dropWhile isBlank = s.dropWhile isSeparator := by
  cases hs : s.dropWhile isSeparator with
  | nil => rfl
  | cons c rest =>
    have hc := not_isSeparator_of_dropWhile hs
    have hblank : ¬ isBlank c = true := by
      simp only [isBlank, isSeparator, Bool.or_eq_false_iff, Bool.or_eq_true, decide_eq_true_eq,
        decide_eq_false_iff_not] at hc ⊢
      tauto
    rw [List.dropWhile_cons_of_neg hblank]

theorem startsWithNumber_dropWhile (s : List UInt8) : StartsWithNumber (s.dropWhile isSeparator) := by
  rw [StartsWithNumber, dropWhile_blank_separator]
  intro hhead
  obtain ⟨rest, hrest⟩ := List.head?_eq_some_iff.mp hhead
  have hc := not_isSeparator_of_dropWhile hrest
  simp [isSeparator] at hc

theorem numbers_of_blank {n : ℕ} (hn : s.length ≤ n) (h : s.dropWhile isSeparator = []) :
    numbers strtod n s = ([], []) := by
  cases n with
  | zero =>
    obtain rfl := List.length_eq_zero_iff.mp (Nat.le_zero.mp hn)
    rfl
  | succ n => rw [numbers, h]

theorem numbers_dropWhile {n : ℕ} (hn : s.length ≤ n) :
    numbers strtod n (s.dropWhile isSeparator) = numbers strtod n s := by
  cases n with
  | zero =>
    obtain rfl := List.length_eq_zero_iff.mp (Nat.le_zero.mp hn)
    rfl
  | succ n =>
    have hidem : (s.dropWhile isSeparator).dropWhile isSeparator = s.dropWhile isSeparator := by
      rw [dropWhile_separator_of_startsWithNumber (startsWithNumber_dropWhile s), dropWhile_blank_separator]
    rw [numbers, numbers, hidem]

/-- The columns are the numbers, as many as there is room for. If something else follows, one zero is added. -/
theorem parseCsvLine_eq (room : ℕ) {n : ℕ} (hn : line.length ≤ n) (hends : 10 ∉ line ∧ 13 ∉ line)
    (hstart : StartsWithNumber line) :
    parseCsvLine strtod room line = ((numbers strtod n line).1.take room).map some ++
      if (numbers strtod n line).1.length < room ∧ (numbers strtod n line).2 ≠ [] then [none] else [] := by
  induction room generalizing line n with
  | zero => simp [parseCsvLine]
  | succ room ih =>
    have hsame := dropWhile_separator_of_startsWithNumber hstart
    have hsub : ∀ c ∈ line.dropWhile isBlank, c ∈ line := fun c hc => (List.dropWhile_sublist _).subset hc
    rw [parseCsvLine]
    cases hp : line.dropWhile isBlank with
    | nil =>
      rw [numbers_of_blank hn (hsame.trans hp)]
      simp
    | cons c p =>
      rw [hp] at hsame hsub
      have hlen : (c :: p).length ≤ line.length := hp ▸ (List.dropWhile_sublist _).length_le
      obtain ⟨n, rfl⟩ : ∃ k, n = k + 1 := ⟨n - 1, by rw [List.length_cons] at hlen; omega⟩
      have hc : ¬ (c = 10 ∨ c = 13) := by
        rintro (rfl | rfl)
        · exact hends.1 (hsub _ List.mem_cons_self)
        · exact hends.2 (hsub _ List.mem_cons_self)
      obtain ⟨v, k, hk⟩ : ∃ v k, strtod (c :: p) = (v, k) := ⟨_, _, rfl⟩
      simp only [if_neg hc, numbers, hsame, hk]
      cases k with
      | zero => simp
      | succ k =>
        have hrest : ((c :: p).drop (k + 1)).length ≤ n := by
          rw [List.length_drop]
          omega
        have hsub' : ∀ d ∈ ((c :: p).drop (k + 1)).dropWhile isSeparator, d ∈ line := fun d hd =>
          hsub d (List.mem_of_mem_drop ((List.dropWhile_sublist _).subset hd))
        dsimp only
        rw [ih (Nat.le_trans (List.dropWhile_sublist _).length_le hrest)
          ⟨fun h => hends.1 (hsub' _ h), fun h => hends.2 (hsub' _ h)⟩ (startsWithNumber_dropWhile _),
          numbers_dropWhile hrest]
        simp

theorem parseCsvLine_of_comma (hcomma : ∀ s, (strtod (44 :: s)).2 = 0) (room : ℕ) (hstart : ¬ StartsWithNumber line) :
    parseCsvLine strtod (room + 1) line = [none] := by
  obtain ⟨p, hp⟩ := List.head?_eq_some_iff.mp (not_not.mp hstart)
  obtain ⟨v, k, hk⟩ : ∃ v k, strtod (44 :: p) = (v, k) := ⟨_, _, rfl⟩
  obtain rfl : k = 0 := by simpa [hk] using hcomma p
  simp [parseCsvLine, hp, hk]

variable (strtod) in
theorem parseCsvLine_eq_nil (room : ℕ) (hends : 10 ∉ line ∧ 13 ∉ line) :
    parseCsvLine strtod (room + 1) line = [] ↔ line.dropWhile isBlank = [] := by
  rw [parseCsvLine]
  cases hp : line.dropWhile isBlank with
  | nil => simp
  | cons c p =>
    have hmem : c ∈ line := (List.dropWhile_sublist isBlank).subset (hp ▸ List.mem_cons_self)
    have hc : ¬ (c = 10 ∨ c = 13) := by
      rintro (rfl | rfl)
      · exact hends.1 hmem
      · exact hends.2 hmem
    obtain ⟨v, k, hk⟩ : ∃ v k, strtod (c :: p) = (v, k) := ⟨_, _, rfl⟩
    simp only [if_neg hc, hk]
    cases k <;> simp

theorem length_parseCsvLine_le (room : ℕ) (line : List UInt8) : (parseCsvLine strtod room line).length ≤ room := by
  induction room generalizing line with
  | zero => simp [parseCsvLine]
  | succ room ih =>
    rw [parseCsvLine]
    cases line.dropWhile isBlank with
    | nil => simp
    | cons c p =>
      obtain ⟨v, k, hk⟩ : ∃ v k, strtod (c :: p) = (v, k) := ⟨_, _, rfl⟩
      simp only [hk]
      split_ifs
      · simp
      · cases k with
        | zero => simp
        | succ k => simpa using ih _

theorem parseCsvLine_of_clean (hends : 10 ∉ line ∧ 13 ∉ line) (h : Clean strtod line) :
    parseCsvLine strtod 1024 line = ((lineNumbers strtod line).take 1024).map some := by
  rw [parseCsvLine_eq 1024 (Nat.le_refl _) hends h.1, if_neg, List.append_nil]
  · rfl
  · rintro ⟨hlt, hne⟩
    rcases h.2 with hnone | hmany
    · exact hne hnone
    · exact absurd hlt (Nat.not_lt.mpr hmany)

theorem clean_of_notMem (hcomma : ∀ s, (strtod (44 :: s)).2 = 0) (hends : 10 ∉ line ∧ 13 ∉ line)
    (h : none ∉ parseCsvLine strtod 1024 line) : Clean strtod line := by
  by_cases hstart : StartsWithNumber line
  · refine ⟨hstart, ?_⟩
    rw [parseCsvLine_eq 1024 (Nat.le_refl _) hends hstart] at h
    by_contra hnot
    rw [not_or, Nat.not_le] at hnot
    rw [if_pos ⟨hnot.2, hnot.1⟩] at h
    simp at h
  · rw [parseCsvLine_of_comma hcomma _ hstart] at h
    simp at h

end

/-! ## The table -/

section

variable {strtod} {text line : List UInt8}

theorem ends_notMem_cstr (h : line ∈ (lines true text).map cstr) : 10 ∉ line ∧ 13 ∉ line := by
  obtain ⟨l, hl, rfl⟩ := List.mem_map.mp h
  obtain ⟨hlf, hcr⟩ := ends_notMem_lines hl
  have hsub : ∀ c ∈ cstr l, c ∈ l := fun c hc => (List.takeWhile_sublist _).subset hc
  exact ⟨fun h => hlf (hsub _ h), fun h => hcr (hsub _ h)⟩

theorem ends_notMem_tokenLines (h : line ∈ tokenLines text) : 10 ∉ line ∧ 13 ∉ line :=
  ends_notMem_cstr (List.mem_filter.mp (List.mem_filter.mp h).1).1

variable (strtod) in
theorem csvRow_eq (hends : 10 ∉ line ∧ 13 ∉ line) :
    csvRow strtod line =
      if line.head? ≠ some 35 ∧ line.dropWhile isBlank ≠ [] then some (parseCsvLine strtod 1024 line) else none := by
  have hnil := parseCsvLine_eq_nil strtod 1023 hends
  by_cases hcomment : line.head? = some 35
  · simp [csvRow, hcomment]
  · by_cases hblank : line.dropWhile isBlank = []
    · simp [csvRow, hblank, hnil.mpr hblank]
    · have hne : line ≠ [] := by
        rintro rfl
        exact hblank rfl
      have hcols : parseCsvLine strtod 1024 line ≠ [] := fun h => hblank (hnil.mp h)
      simp [csvRow, hne, hcomment, hblank, hcols]

/-- The rows are those of the first lines, as many as there are LF. -/
theorem csvTable_eq (strtod : Strtod V) (text : List UInt8) :
    csvTable strtod text = ((tokenLines text).take (text.count 10)).map (parseCsvLine strtod 1024) := by
  have hrows : ∀ ls : List (List UInt8), (∀ l ∈ ls, 10 ∉ l ∧ 13 ∉ l) →
      ls.filterMap (csvRow strtod) = ((ls.filter fun line => line.head? ≠ some 35).filter fun line =>
        line.dropWhile isBlank ≠ []).map (parseCsvLine strtod 1024) := by
    intro ls hls
    induction ls with
    | nil => rfl
    | cons l ls ih =>
      obtain ⟨hl, hls⟩ := List.forall_mem_cons.mp hls
      have hrow := csvRow_eq strtod hl
      by_cases hcomment : l.head? = some 35
      · rw [if_neg fun h => h.1 hcomment] at hrow
        simpa [hrow, hcomment] using ih hls
      · by_cases hblank : l.dropWhile isBlank = []
        · rw [if_neg fun h => h.2 hblank] at hrow
          simpa [hrow, hcomment, hblank, -List.dropWhile_eq_nil_iff] using ih hls
        · rw [if_pos ⟨hcomment, hblank⟩] at hrow
          simpa [hrow, hcomment, hblank, -List.dropWhile_eq_nil_iff] using ih hls
  rw [csvTable, scan_eq (fun rows => by simp [csvRow]), foldWhile_rows, hrows _ fun l hl => ends_notMem_cstr hl]
  rw [List.nil_append, List.length_nil, Nat.sub_zero, List.map_take]
  rfl

theorem lt_maxCols_iff {rows : List (List (Cell V))} {k : ℕ} : k < maxCols rows ↔ ∃ row ∈ rows, k < row.length := by
  have hfold : ∀ m, k < rows.foldl (fun m row => max m row.length) m ↔ k < m ∨ ∃ row ∈ rows, k < row.length := by
    induction rows with
    | nil => simp
    | cons row rows ih =>
      intro m
      rw [List.foldl_cons, ih, lt_max_iff, or_assoc]
      simp
  rw [maxCols, hfold, or_iff_right (Nat.not_lt_zero k)]

theorem length_le_maxCols {rows : List (List (Cell V))} {row : List (Cell V)} (h : row ∈ rows) :
    row.length ≤ maxCols rows := by
  by_contra hlt
  exact absurd (lt_maxCols_iff.mpr ⟨row, h, Nat.not_le.mp hlt⟩) (Nat.lt_irrefl _)

def cellSample (numFeatures : ℕ) (row : List (Cell V)) : Row (Cell V) :=
  ⟨(List.range numFeatures).map fun j => row.getD j none, [row.getD numFeatures none]⟩

/-- What `SNEPPX_data_pipeline_load` makes of a table. -/
theorem load_eq (strtod : Strtod V) (text : List UInt8) (p : Pipeline (Cell V)) :
    (load strtod text p = none ∧ ∀ row ∈ csvTable strtod text, row.length < 2) ∨
      ∃ q, load strtod text p = some q ∧ (∃ row ∈ csvTable strtod text, 2 ≤ row.length) ∧
        q.samples = (csvTable strtod text).map (cellSample (maxCols (csvTable strtod text) - 1)) := by
  by_cases hnone : csvTable strtod text = [] ∨ maxCols (csvTable strtod text) < 2
  · left
    constructor
    · rw [load]
      split_ifs with hcount
      · rfl
      · exact if_pos hnone
    · intro row hrow
      rcases hnone with hempty | hnarrow
      · simp [hempty] at hrow
      · exact Nat.lt_of_le_of_lt (length_le_maxCols hrow) hnarrow
  · right
    obtain ⟨hempty, hwide⟩ := not_or.mp hnone
    have hcount : text.count 10 ≠ 0 := fun hzero => hempty (by rw [csvTable_eq, hzero, List.take_zero, List.map_nil])
    refine ⟨_, by rw [load, if_neg hcount]; exact if_neg hnone, lt_maxCols_iff.mp (Nat.not_lt.mp hwide), ?_⟩
    refine List.ext_getElem (by simp [Pipeline.samples]) fun i hi hi' => ?_
    have hrow : i < (csvTable strtod text).length := by simpa using hi'
    have hfeatures := Lib.Segments.take_drop_flatMap (k := maxCols (csvTable strtod text) - 1)
      (f := fun row : List (Cell V) =>
        (List.range (maxCols (csvTable strtod text) - 1)).map fun j => row.getD j none) (fun _ _ => by simp) hrow
    have hlabel : ∀ l : List (Cell V), (h : i < l.length) → (l.drop (i * 1)).take 1 = [l[i]] := by
      intro l h
      rw [Nat.mul_one, List.drop_eq_getElem_cons h, List.take_succ_cons, List.take_zero]
    simp only [Pipeline.samples, List.getElem_map, List.getElem_range, Pipeline.row, cellSample]
    rw [hlabel _ (by simpa using hrow), hfeatures, List.getElem_map]

/-- The sample of a row is the one of a data row exactly if the row consists of its numbers, and has the full
width. -/
theorem cellSample_eq_iff {n : ℕ} {row : List (Cell V)} {r : List V} (hrow : row.length ≤ n + 1) (hr : r ≠ []) :
    cellSample n row = sampleOf r ↔ row = r.map some ∧ r.length = n + 1 := by
  obtain ⟨r, v, rfl⟩ := (List.eq_nil_or_concat' r).resolve_left hr
  rw [cellSample, sampleOf, Row.mk.injEq, List.dropLast_concat, List.getLast?_concat, List.cons_eq_cons,
    List.map_append, List.length_append]
  constructor
  · rintro ⟨hfeatures, hlabel, -⟩
    have hlen : n = r.length := by simpa using congrArg List.length hfeatures
    subst hlen
    have hget : ∀ j < r.length, row.getD j none = (r.map some).getD j none := by
      intro j hj
      have hj' := congrArg (fun l => l.getD j none) hfeatures
      simpa [hj] using hj'
    have hlen : row.length = r.length + 1 := by
      by_contra hne
      have hshort : row.length ≤ r.length := by omega
      simp [hshort] at hlabel
    refine ⟨List.ext_getElem (by simpa using hlen) fun j hj hj' => ?_, by simp⟩
    by_cases hjr : j < r.length
    · have hj'' := hget j hjr
      rw [List.getD_eq_getElem _ _ hj, List.getD_eq_getElem _ _ (by simpa using hjr)] at hj''
      rw [hj'', List.getElem_append_left]
    · obtain rfl : j = r.length := by omega
      rw [List.getD_eq_getElem _ _ hj] at hlabel
      rw [hlabel, List.getElem_append_right (by simp)]
      simp
  · rintro ⟨rfl, hlen⟩
    have hlen' : r.length = n := by simpa using hlen
    subst hlen'
    refine ⟨List.ext_getElem (by simp) fun j hj hj' => ?_, by simp, rfl⟩
    have hlt : j < (r.map some ++ [v].map some).length := by
      rw [List.length_append]
      omega
    rw [List.getElem_map, List.getElem_range, List.getD_eq_getElem _ _ hlt, List.getElem_append_left]

theorem map_cellSample_eq_iff {n : ℕ} {rows : List (List (Cell V))} {rs : List (List V)}
    (hrows : ∀ row ∈ rows, row.length ≤ n + 1) (hrs : ∀ r ∈ rs, r ≠ []) :
    rows.map (cellSample n) = rs.map sampleOf ↔ rows = rs.map (List.map some) ∧ ∀ r ∈ rs, r.length = n + 1 := by
  induction rows generalizing rs with
  | nil => cases rs <;> simp
  | cons row rows ih =>
    cases rs with
    | nil => simp
    | cons r rs =>
      obtain ⟨hrow, hrows⟩ := List.forall_mem_cons.mp hrows
      obtain ⟨hr, hrs⟩ := List.forall_mem_cons.mp hrs
      rw [List.map_cons, List.map_cons, List.map_cons, List.cons_eq_cons, List.cons_eq_cons, ih hrows hrs,
        cellSample_eq_iff hrow hr, List.forall_mem_cons]
      tauto

/-! ## The data rows -/

/-- Lines of blanks have no numbers. -/
theorem dataRows_eq (strtod : Strtod V) (text : List UInt8) :
    dataRows strtod text = ((tokenLines text).map (lineNumbers strtod)).filter (· ≠ []) := by
  rw [dataRows, tokenLines]
  induction csvLines text with
  | nil => rfl
  | cons l ls ih =>
    by_cases hblank : l.dropWhile isBlank = []
    · have hstart : StartsWithNumber l := by simp [StartsWithNumber, hblank]
      have hnone : lineNumbers strtod l = [] := by
        rw [lineNumbers, numbers_of_blank (Nat.le_refl _)]
        rw [dropWhile_separator_of_startsWithNumber hstart, hblank]
      simpa [hblank, hnone, -List.dropWhile_eq_nil_iff] using ih
    · by_cases hnone : lineNumbers strtod l = []
      · simpa [hblank, hnone, -List.dropWhile_eq_nil_iff] using ih
      · simpa [hblank, hnone, -List.dropWhile_eq_nil_iff] using ih

theorem ne_nil_of_mem_dataRows {row : List V} (h : row ∈ dataRows strtod text) : row ≠ [] := by
  simpa using (List.mem_filter.mp h).2

theorem lineNumbers_ne_nil (hline : line ∈ tokenLines text) (h : Clean strtod line) :
    lineNumbers strtod line ≠ [] := by
  have hends := ends_notMem_tokenLines hline
  have htoken : line.dropWhile isBlank ≠ [] := by simpa using (List.mem_filter.mp hline).2
  intro hnone
  refine htoken ((parseCsvLine_eq_nil strtod 1023 hends).mp ?_)
  rw [parseCsvLine_of_clean hends h, hnone, List.take_nil, List.map_nil]

/-- If the lines of the table are clean and the table is long enough, then it has all data rows. -/
theorem dataRows_of_clean (hclean : ∀ line ∈ (tokenLines text).take (text.count 10), Clean strtod line)
    (henough : (dataRows strtod text).length ≤ text.count 10) :
    dataRows strtod text = ((tokenLines text).take (text.count 10)).map (lineNumbers strtod) := by
  have hsplit : dataRows strtod text = ((tokenLines text).take (text.count 10)).map (lineNumbers strtod) ++
      (((tokenLines text).drop (text.count 10)).map (lineNumbers strtod)).filter (· ≠ []) := by
    have hfirst : (((tokenLines text).take (text.count 10)).map (lineNumbers strtod)).filter (· ≠ []) =
        ((tokenLines text).take (text.count 10)).map (lineNumbers strtod) := by
      refine List.filter_eq_self.mpr fun row hrow => ?_
      obtain ⟨line, hline, rfl⟩ := List.mem_map.mp hrow
      simpa using lineNumbers_ne_nil (List.mem_of_mem_take hline) (hclean line hline)
    rw [dataRows_eq, ← hfirst, ← List.filter_append, ← List.map_append, List.take_append_drop]
  rw [hsplit] at henough ⊢
  suffices hrest : (((tokenLines text).drop (text.count 10)).map (lineNumbers strtod)).filter (· ≠ []) = [] by
    rw [hrest, List.append_nil]
  by_cases hmany : text.count 10 ≤ (tokenLines text).length
  · rw [List.length_append, List.length_map, List.length_take, Nat.min_eq_left hmany] at henough
    exact List.length_eq_zero_iff.mp (by omega)
  · rw [List.drop_eq_nil_of_le (by omega)]
    rfl

theorem Uniform.csvTable_eq (h : Uniform strtod text) :
    csvTable strtod text = (dataRows strtod text).map (List.map some) := by
  obtain ⟨w, hw, hwidth⟩ := h.width
  have hrows := dataRows_of_clean h.clean h.enough
  rw [DataPipeline.csvTable_eq]
  rw [hrows] at hwidth
  rw [hrows, List.map_map]
  refine List.map_congr_left fun line hline => ?_
  have hlen := hwidth _ (List.mem_map_of_mem hline)
  rw [parseCsvLine_of_clean (ends_notMem_tokenLines (List.mem_of_mem_take hline)) (h.clean line hline),
    List.take_of_length_le (hlen.trans_le hw), Function.comp_apply]

theorem uniform_of_csvTable (hcomma : ∀ s, (strtod (44 :: s)).2 = 0) {w : ℕ}
    (htable : csvTable strtod text = (dataRows strtod text).map (List.map some))
    (hwidth : ∀ row ∈ dataRows strtod text, row.length = w) : Uniform strtod text := by
  have hlen := congrArg List.length htable
  rw [csvTable_eq, List.length_map, List.length_map, List.length_take] at hlen
  have hcell : ∀ row ∈ csvTable strtod text, none ∉ row ∧ row.length ≤ 1024 := by
    intro row hrow
    refine ⟨fun hnone => ?_, ?_⟩
    · rw [htable] at hrow
      obtain ⟨r, -, rfl⟩ := List.mem_map.mp hrow
      simp at hnone
    · rw [csvTable_eq] at hrow
      obtain ⟨line, -, rfl⟩ := List.mem_map.mp hrow
      exact length_parseCsvLine_le _ _
  refine ⟨fun line hline => ?_, by omega, min w 1024, Nat.min_le_right _ _, fun row hrow => ?_⟩
  · have hrow : parseCsvLine strtod 1024 line ∈ csvTable strtod text := by
      rw [csvTable_eq]
      exact List.mem_map_of_mem hline
    exact clean_of_notMem hcomma (ends_notMem_tokenLines (List.mem_of_mem_take hline)) (hcell _ hrow).1
  · have hmem : row.map some ∈ csvTable strtod text := by
      rw [htable]
      exact List.mem_map_of_mem hrow
    have hfits := (hcell _ hmem).2
    rw [List.length_map] at hfits
    have hw := hwidth row hrow
    omega

/-- A line with at most one number gets two columns exactly if something follows that number. -/
theorem length_parseCsvLine_lt_two (hcomma : ∀ s, (strtod (44 :: s)).2 = 0) (hends : 10 ∉ line ∧ 13 ∉ line)
    (hfew : (lineNumbers strtod line).length < 2) :
    (parseCsvLine strtod 1024 line).length < 2 ↔
      (StartsWithNumber line → (lineNumbers strtod line).length = 1 → afterNumbers strtod line = []) := by
  by_cases hstart : StartsWithNumber line
  · have hcols : (parseCsvLine strtod 1024 line).length = (lineNumbers strtod line).length +
        if afterNumbers strtod line ≠ [] then 1 else 0 := by
      rw [parseCsvLine_eq 1024 (Nat.le_refl _) hends hstart, List.length_append, List.length_map, List.length_take]
      rw [lineNumbers, afterNumbers] at *
      rw [Nat.min_eq_right (by omega), apply_ite List.length]
      have hlt : (numbers strtod line.length line).1.length < 1024 := by omega
      simp [hlt]
    rw [hcols]
    by_cases hafter : afterNumbers strtod line = []
    · simp [hafter, hfew]
    · simp only [hafter, ne_eq, not_false_eq_true, if_true, hstart, true_implies, imp_false]
      omega
  · rw [parseCsvLine_of_comma hcomma _ hstart]
    simp [hstart]

theorem singleNumbers_iff (hcomma : ∀ s, (strtod (44 :: s)).2 = 0)
    (hfew : ∀ row ∈ dataRows strtod text, row.length < 2) :
    SingleNumbers strtod text ↔ ∀ row ∈ csvTable strtod text, row.length < 2 := by
  rw [csvTable_eq, List.forall_mem_map]
  refine forall₂_congr fun line hline => ?_
  have htoken := List.mem_of_mem_take hline
  refine (length_parseCsvLine_lt_two hcomma (ends_notMem_tokenLines htoken) ?_).symm
  by_cases hnone : lineNumbers strtod line = []
  · simp [hnone]
  · refine hfew _ ?_
    rw [dataRows_eq]
    exact List.mem_filter.mpr ⟨List.mem_map_of_mem htoken, by simpa using hnone⟩

theorem Uniform.length_eq (h : Uniform strtod text) {row : List V} (hrow : row ∈ dataRows strtod text) :
    row.length = maxCols (csvTable strtod text) := by
  obtain ⟨w, -, hwidth⟩ := h.width
  have htable : ∀ r ∈ csvTable strtod text, r.length = w := by
    intro r hr
    rw [h.csvTable_eq] at hr
    obtain ⟨d, hd, rfl⟩ := List.mem_map.mp hr
    rw [List.length_map, hwidth d hd]
  have hmem : row.map some ∈ csvTable strtod text := by
    rw [h.csvTable_eq]
    exact List.mem_map_of_mem hrow
  have hle := length_le_maxCols hmem
  rw [htable _ hmem] at hle
  have hge : maxCols (csvTable strtod text) ≤ w := by
    by_contra hlt
    obtain ⟨r, hr, hlong⟩ := lt_maxCols_iff.mp (Nat.not_le.mp hlt)
    rw [htable r hr] at hlong
    exact Nat.lt_irrefl _ hlong
  rw [hwidth row hrow]
  exact Nat.le_antisymm hle hge

/-- What is loaded is right exactly if the table is the list of the data rows, of one width. -/
theorem samples_eq_iff {n : ℕ} (hn : maxCols (csvTable strtod text) = n + 1) :
    (csvTable strtod text).map (cellSample n) = (dataRows strtod text).map sampleOf ↔
      csvTable strtod text = (dataRows strtod text).map (List.map some) ∧
        ∀ row ∈ dataRows strtod text, row.length = n + 1 :=
  map_cellSample_eq_iff (fun _ hrow => hn ▸ length_le_maxCols hrow) fun _ hrow => ne_nil_of_mem_dataRows hrow

/-- A uniform file with a wide row has one in its table. -/
theorem Uniform.not_narrow (h : Uniform strtod text) (hwide : ∃ row ∈ dataRows strtod text, 2 ≤ row.length)
    (hnarrow : ∀ row ∈ csvTable strtod text, row.length < 2) : False := by
  obtain ⟨row, hrow, hlong⟩ := hwide
  have hmem : row.map some ∈ csvTable strtod text := by
    rw [h.csvTable_eq]
    exact List.mem_map_of_mem hrow
  have hlt := hnarrow _ hmem
  rw [List.length_map] at hlt
  omega

end

/-- A file with a row of two numbers or more is loaded as it should be exactly if the lines of the table are
clean, no data row is missing, and all have the same width. Without such a row it is exactly if no line gets a
second column. -/
theorem load_correct_iff {strtod : Strtod V} (hcomma : ∀ s, (strtod (44 :: s)).2 = 0) (text : List UInt8)
    (p : Pipeline (Cell V)) :
    LoadCorrect strtod text p ↔
      ((∃ row ∈ dataRows strtod text, 2 ≤ row.length) → Uniform strtod text) ∧
        ((¬ ∃ row ∈ dataRows strtod text, 2 ≤ row.length) → SingleNumbers strtod text) := by
  rw [LoadCorrect]
  rcases load_eq strtod text p with ⟨hload, hnarrow⟩ | ⟨q, hload, ⟨row, hrow, hlong⟩, hsamples⟩
  · rw [hload]
    by_cases hwide : ∃ row ∈ dataRows strtod text, 2 ≤ row.length
    · have hnot : ¬ Uniform strtod text := fun h => h.not_narrow hwide hnarrow
      simp [hwide, hnot]
    · have hfew : ∀ row ∈ dataRows strtod text, row.length < 2 := fun row hrow =>
        Nat.not_le.mp fun hle => hwide ⟨row, hrow, hle⟩
      simp [hwide, (singleNumbers_iff hcomma hfew).mpr hnarrow]
  · have hmax : maxCols (csvTable strtod text) = maxCols (csvTable strtod text) - 1 + 1 := by
      have hle := length_le_maxCols hrow
      omega
    have hload' : (∀ q', load strtod text p = some q' → q'.samples = (dataRows strtod text).map sampleOf) ↔
        q.samples = (dataRows strtod text).map sampleOf := by
      rw [hload]
      exact ⟨fun h => h q rfl, fun h q' hq' => Option.some.inj hq' ▸ h⟩
    have hsome : (load strtod text p).isSome = true := by rw [hload, Option.isSome_some]
    rw [hload', hsamples, samples_eq_iff hmax]
    by_cases hwide : ∃ row ∈ dataRows strtod text, 2 ≤ row.length
    · simp only [hwide, hsome, true_implies, not_true, false_implies, and_true, true_and]
      constructor
      · rintro ⟨htable, hwidth⟩
        exact uniform_of_csvTable hcomma htable hwidth
      · intro h
        exact ⟨h.csvTable_eq, fun r hr => (h.length_eq hr).trans hmax⟩
    · have hfew : ∀ row ∈ dataRows strtod text, row.length < 2 := fun row hrow =>
        Nat.not_le.mp fun hle => hwide ⟨row, hrow, hle⟩
      have hnot : ¬ SingleNumbers strtod text := fun h => by
        have hlt := (singleNumbers_iff hcomma hfew).mp h row hrow
        omega
      refine iff_of_false ?_ fun h => hnot (h.2 hwide)
      rintro ⟨-, htable, -⟩
      rw [htable] at hrow
      obtain ⟨r, hr, rfl⟩ := List.mem_map.mp hrow
      rw [List.length_map] at hlong
      exact hwide ⟨r, hr, hlong⟩

/-- `strtod` for the digits of decimal numbers. -/
def strtodDigits (s : List UInt8) : ℕ × ℕ :=
  let digits := s.takeWhile fun c => 48 ≤ c && c ≤ 57
  (digits.foldl (fun n c => 10 * n + (c.toNat - 48)) 0, digits.length)

/-- `1,2` and `3,4`, each with LF. -/
def twoRows : List UInt8 := [49, 44, 50, 10, 51, 44, 52, 10]

/-- The same without the last LF. -/
def twoRowsUnterminated : List UInt8 := [49, 44, 50, 10, 51, 44, 52]

def emptyPipeline : Pipeline (Cell ℕ) := ⟨1, [], [], 0, 0, 0, none, 0⟩

theorem load_correct_iff_twoRows : LoadCorrect strtodDigits twoRows emptyPipeline := by
  refine (load_correct_iff (fun s => by simp [strtodDigits]) twoRows emptyPipeline).mpr ⟨fun _ => ?_, fun hnarrow => ?_⟩
  · have hlines : (tokenLines twoRows).take (twoRows.count 10) = [[49, 44, 50], [51, 44, 52]] := by decide
    refine ⟨fun line hline => ?_, by decide, 2, by decide, by decide⟩
    rw [hlines] at hline
    rcases List.mem_pair.mp hline with rfl | rfl
    · exact ⟨by rw [StartsWithNumber]; decide, .inl (by decide)⟩
    · exact ⟨by rw [StartsWithNumber]; decide, .inl (by decide)⟩
  · exact absurd ⟨[1, 2], by decide, by decide⟩ hnarrow

/-- Without the last LF the second row is missing. -/
theorem not_loadCorrect_unterminated : ¬ LoadCorrect strtodDigits twoRowsUnterminated emptyPipeline := by
  rintro ⟨-, hsamples⟩
  have hload := hsamples _ rfl
  exact absurd hload (by decide)

end SneppxAlg.DataPipeline
