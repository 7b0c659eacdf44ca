import Mathlib.Data.List.Basic

/-!
# Cutting a text into lines, in place

A text lies in a buffer with one more byte. A loop looks for the ends of the lines, puts a NUL there, and
hands the C string of each line to its caller, until the caller has enough. Lines end with LF, or if
`cr` is set with LF, CR or CR LF.

What the caller sees are the lines of the text, one after another, each up to its first NUL (`scan_eq`).
-/

namespace Lib.LineScan

variable {α : Type*}

/-- The bytes of a C string. -/
def cstr (l : List UInt8) : List UInt8 := l.takeWhile (· ≠ 0)

/-- The loop, at place `i` of the buffer, with the start of the current line. -/
def scan (cr : Bool) (stop : α → Bool) (line : α → List UInt8 → α) (n : ℕ) : ℕ → List UInt8 → ℕ → ℕ → α → α
  | 0, _, _, _, acc => acc
  | fuel + 1, text, i, lineStart, acc =>
    if n < i ∨ stop acc = true then acc
    else if i = n ∨ text[i]? = some 10 ∨ (cr = true ∧ text[i]? = some 13) then
      let j := if cr = true ∧ text[i]? = some 13 ∧ i + 1 < n ∧ text[i + 1]? = some 10 then i + 1 else i
      let text := (text.set i 0).set j 0
      let acc := if lineStart < j then line acc (cstr (text.drop lineStart)) else acc
      scan cr stop line n fuel text (j + 1) (j + 1) acc
    else scan cr stop line n fuel text (i + 1) lineStart acc

/-! ## Lines -/

/-- A text in which all lines end with LF. -/
def unifyEnds : List UInt8 → List UInt8
  | [] => []
  | 13 :: 10 :: rest => 10 :: unifyEnds rest
  | 13 :: rest => 10 :: unifyEnds rest
  | c :: rest => c :: unifyEnds rest

/-- The lines of a text, where `cur` is the start of the first one. -/
def linesFrom (cur : List UInt8) : List UInt8 → List (List UInt8)
  | [] => [cur]
  | c :: rest => if c = 10 then cur :: linesFrom [] rest else linesFrom (cur ++ [c]) rest

/-- The text with LF at the ends of its lines. -/
def normalized (cr : Bool) (text : List UInt8) : List UInt8 := if cr then unifyEnds text else text

def lines (cr : Bool) (text : List UInt8) : List (List UInt8) := linesFrom [] (normalized cr text)

def foldWhile (stop : α → Bool) (line : α → List UInt8 → α) (acc : α) : List (List UInt8) → α
  | [] => acc
  | l :: ls => if stop acc = true then acc else foldWhile stop line (line acc l) ls

section

variable {cr : Bool} {stop : α → Bool} {line : α → List UInt8 → α}

theorem foldWhile_stop {acc : α} (h : stop acc = true) (ls : List (List UInt8)) :
    foldWhile stop line acc ls = acc := by
  cases ls with
  | nil => rfl
  | cons l ls => exact if_pos h

theorem cstr_append_zero (cur rest : List UInt8) : cstr (cur ++ 0 :: rest) = cstr cur := by
  induction cur with
  | nil => rfl
  | cons c cur ih =>
    by_cases hc : c = 0
    · simp [cstr, hc]
    · simpa [cstr, hc] using ih

/-- A caller that makes at most one row of each line, and has enough with `limit` of them. -/
theorem foldWhile_rows {β : Type*} (row : List UInt8 → Option β) (limit : ℕ) (rows : List β)
    (ls : List (List UInt8)) :
    foldWhile (fun rows : List β => decide (limit ≤ rows.length)) (fun rows l => rows ++ (row l).toList) rows ls =
      rows ++ (ls.filterMap row).take (limit - rows.length) := by
  induction ls generalizing rows with
  | nil => simp [foldWhile]
  | cons l ls ih =>
    rw [foldWhile]
    split_ifs with hlimit
    · rw [Nat.sub_eq_zero_of_le (of_decide_eq_true hlimit), List.take_zero, List.append_nil]
    · rw [ih]
      cases hrow : row l with
      | none => simp [hrow]
      | some r =>
        have hroom : limit - rows.length = limit - (rows.length + 1) + 1 := by
          have hlt : rows.length < limit := by simpa using hlimit
          omega
        simp [hrow, hroom]

theorem of_mem_linesFrom {c : UInt8} {cur text l : List UInt8} (hl : l ∈ linesFrom cur text) (hc : c ∈ l) :
    c ∈ cur ∨ (c ∈ text ∧ c ≠ 10) := by
  induction text generalizing cur with
  | nil => exact .inl (List.mem_singleton.mp hl ▸ hc)
  | cons d text ih =>
    rw [linesFrom] at hl
    split_ifs at hl with hd
    · rcases List.mem_cons.mp hl with rfl | hl
      · exact .inl hc
      · rcases ih hl with hcur | ⟨htext, hne⟩
        · simp at hcur
        · exact .inr ⟨List.mem_cons_of_mem _ htext, hne⟩
    · rcases ih hl with hcur | ⟨htext, hne⟩
      · rcases List.mem_append.mp hcur with hcur | hcur
        · exact .inl hcur
        · obtain rfl := List.mem_singleton.mp hcur
          exact .inr ⟨List.mem_cons_self, hd⟩
      · exact .inr ⟨List.mem_cons_of_mem _ htext, hne⟩

theorem cr_notMem_unifyEnds (text : List UInt8) : 13 ∉ unifyEnds text := by
  fun_induction unifyEnds text with
  | case1 => simp
  | case2 rest ih => simpa using ih
  | case3 rest hnext ih => simpa using ih
  | case4 c rest hcrlf hcr ih => simpa [eq_comm] using ⟨hcr, ih⟩

theorem ends_notMem_lines {text l : List UInt8} (hl : l ∈ lines true text) : 10 ∉ l ∧ 13 ∉ l := by
  refine ⟨fun hc => ?_, fun hc => ?_⟩
  · rcases of_mem_linesFrom hl hc with hcur | ⟨-, hne⟩
    · simp at hcur
    · exact hne rfl
  · rcases of_mem_linesFrom hl hc with hcur | ⟨htext, -⟩
    · simp at hcur
    · exact cr_notMem_unifyEnds text htext

theorem length_flatten_linesFrom (cur text : List UInt8) :
    (linesFrom cur text).flatten.length ≤ cur.length + text.length := by
  induction text generalizing cur with
  | nil => simp [linesFrom]
  | cons c text ih =>
    rw [linesFrom]
    split_ifs
    · have hle := ih []
      rw [List.flatten_cons, List.length_append, List.length_cons]
      rw [List.length_nil] at hle
      omega
    · have hle := ih (cur ++ [c])
      rw [List.length_append, List.length_singleton] at hle
      rw [List.length_cons]
      omega

/-! ## The rounds of the loop -/

section

variable {n fuel i start : ℕ} {l r : List UInt8} {c : UInt8} {acc : α}

theorem scan_done (h : n < i ∨ stop acc = true) (text : List UInt8) :
    scan cr stop line n fuel text i start acc = acc := by
  cases fuel with
  | zero => rfl
  | succ fuel => rw [scan, if_pos h]

theorem normalized_char (hc : ¬ (cr = true ∧ c = 13)) (r : List UInt8) :
    normalized cr (c :: r) = c :: normalized cr r := by
  cases cr with
  | false => rfl
  | true => simp [normalized, unifyEnds, show c ≠ 13 from fun h => hc ⟨rfl, h⟩]

theorem normalized_crlf (hcr : cr = true) (r : List UInt8) :
    normalized cr (13 :: 10 :: r) = 10 :: normalized cr r := by
  simp [normalized, hcr, unifyEnds]

theorem normalized_cr (hcr : cr = true) (hr : r[0]? ≠ some 10) : normalized cr (13 :: r) = 10 :: normalized cr r := by
  cases r with
  | nil => simp [normalized, hcr, unifyEnds]
  | cons d r =>
    have hd : d ≠ 10 := fun h => hr (by simp [h])
    simp [normalized, hcr, unifyEnds, hd]

/-- What the caller makes of the line that ends in front of `r`. -/
def hand (line : α → List UInt8 → α) (start j : ℕ) (text : List UInt8) (acc : α) : α :=
  if start < j then line acc (cstr (text.drop start)) else acc

theorem scan_char (hlt : l.length < n) (hstop : ¬ stop acc = true) (hc : c ≠ 10) (hcr : ¬ (cr = true ∧ c = 13)) :
    scan cr stop line n (fuel + 1) (l ++ c :: r) l.length start acc =
      scan cr stop line n fuel (l ++ c :: r) (l.length + 1) start acc := by
  have hget : (l ++ c :: r)[l.length]? = some c := by simp
  rw [scan, if_neg (not_or.mpr ⟨by omega, hstop⟩), if_neg]
  rw [hget, Option.some_inj, Option.some_inj]
  exact not_or.mpr ⟨by omega, not_or.mpr ⟨hc, hcr⟩⟩

/-- A line that ends with one byte, or at the end of the text. -/
theorem scan_cut (hle : l.length ≤ n) (hstop : ¬ stop acc = true)
    (hend : l.length = n ∨ c = 10 ∨ (cr = true ∧ c = 13))
    (hone : ¬ (cr = true ∧ c = 13 ∧ l.length + 1 < n ∧ r[0]? = some 10)) :
    scan cr stop line n (fuel + 1) (l ++ c :: r) l.length start acc =
      scan cr stop line n fuel (l ++ 0 :: r) (l.length + 1) (l.length + 1)
        (hand line start l.length (l ++ 0 :: r) acc) := by
  have hnext : (l ++ c :: r)[l.length + 1]? = r[0]? := by
    rw [List.getElem?_append_right (by omega), Nat.add_sub_cancel_left, List.getElem?_cons_succ]
  have hend' : l.length = n ∨ (l ++ c :: r)[l.length]? = some 10 ∨ (cr = true ∧ (l ++ c :: r)[l.length]? = some 13) := by
    simpa using hend
  have hone' : ¬ (cr = true ∧ (l ++ c :: r)[l.length]? = some 13 ∧ l.length + 1 < n ∧
      (l ++ c :: r)[l.length + 1]? = some 10) := by
    rw [hnext]
    simpa using hone
  rw [scan, if_neg (not_or.mpr ⟨by omega, hstop⟩), if_pos hend', if_neg hone']
  simp [hand]

/-- A line that ends with CR LF. -/
theorem scan_cut_two (hlt : l.length + 1 < n) (hstop : ¬ stop acc = true) (hcr : cr = true) :
    scan cr stop line n (fuel + 1) (l ++ 13 :: 10 :: r) l.length start acc =
      scan cr stop line n fuel (l ++ [0, 0] ++ r) (l.length + 2) (l.length + 2)
        (hand line start (l.length + 1) (l ++ [0, 0] ++ r) acc) := by
  have hget : (l ++ 13 :: 10 :: r)[l.length]? = some 13 := by simp
  have hnext : (l ++ 13 :: 10 :: r)[l.length + 1]? = some 10 := by
    rw [List.getElem?_append_right (by omega), Nat.add_sub_cancel_left]
    rfl
  have hset : ((l ++ 13 :: 10 :: r).set l.length 0).set (l.length + 1) 0 = l ++ [0, 0] ++ r := by
    rw [List.set_append_right _ _ (Nat.le_refl _), List.set_append_right _ _ (Nat.le_succ _)]
    simp
  rw [scan, if_neg (not_or.mpr ⟨by omega, hstop⟩), if_pos (.inr (.inr ⟨hcr, hget⟩)),
    if_pos ⟨hcr, hget, hlt, hnext⟩]
  simp only [hset]
  rfl

/-- The caller gets the line that ends in front of a NUL. -/
theorem hand_eq (hblank : ∀ acc, line acc [] = acc) (pre cur r : List UInt8) {j : ℕ}
    (hj : pre.length + cur.length ≤ j) : hand line pre.length j (pre ++ cur ++ 0 :: r) acc = line acc (cstr cur) := by
  have hdrop : (pre ++ cur ++ 0 :: r).drop pre.length = cur ++ 0 :: r := by simp
  rw [hand, hdrop, cstr_append_zero]
  split_ifs with hlt
  · rfl
  · have hcur : cur = [] := List.length_eq_zero_iff.mp (by omega)
    rw [hcur]
    exact (hblank acc).symm

end

/-- The part of the buffer in front of the current line is never looked at again. -/
theorem scan_eq_foldWhile (hblank : ∀ acc, line acc [] = acc) {n fuel : ℕ} (pre cur rest : List UInt8)
    (hn : n = (pre ++ cur).length + rest.length) (hfuel : rest.length < fuel) (acc : α) :
    scan cr stop line n fuel (pre ++ cur ++ (rest ++ [0])) (pre ++ cur).length pre.length acc =
      foldWhile stop line acc ((linesFrom cur (normalized cr rest)).map cstr) := by
  have hlen : (pre ++ cur).length = pre.length + cur.length := List.length_append
  induction fuel generalizing pre cur rest acc with
  | zero => exact absurd hfuel (Nat.not_lt_zero _)
  | succ fuel ih =>
    by_cases hstop : stop acc = true
    · rw [scan_done (.inr hstop), foldWhile_stop hstop]
    · -- After a cut the next line starts behind the NUL.
      have hcut : ∀ (zeros rest' : List UInt8), rest'.length < fuel →
          n = (pre ++ cur ++ zeros).length + rest'.length →
          scan cr stop line n fuel (pre ++ cur ++ zeros ++ (rest' ++ [0])) (pre ++ cur ++ zeros).length
              (pre ++ cur ++ zeros).length (line acc (cstr cur)) =
            foldWhile stop line (line acc (cstr cur))
              ((linesFrom [] (normalized cr rest')).map cstr) := by
        intro zeros rest' hfuel' hn'
        have hih := ih (pre ++ cur ++ zeros) [] rest' (by simpa using hn') hfuel' (line acc (cstr cur)) (by simp)
        simpa using hih
      have hempty : normalized cr [] = [] := by cases cr <;> rfl
      have hfold : ∀ ls, foldWhile stop line acc ((cur :: ls).map cstr) =
          foldWhile stop line (line acc (cstr cur)) (ls.map cstr) := fun ls => if_neg hstop
      cases rest with
      | nil =>
        have hl : (pre ++ cur).length = n := by simpa using hn.symm
        rw [List.nil_append, scan_cut (by omega) hstop (.inl hl) (by simp), scan_done (.inl (by omega)),
          hand_eq hblank _ _ _ (by omega), hempty]
        simp [linesFrom, foldWhile, hstop]
      | cons c rest =>
        rw [List.length_cons] at hfuel hn
        rw [List.cons_append]
        by_cases hcr : cr = true ∧ c = 13
        · obtain ⟨hcr, rfl⟩ := hcr
          by_cases hnext : rest[0]? = some 10
          · obtain ⟨rest, rfl⟩ : ∃ rest', rest = 10 :: rest' := by
              cases rest with
              | nil => simp at hnext
              | cons d rest => exact ⟨rest, by simpa using hnext⟩
            rw [List.length_cons] at hfuel hn
            rw [List.cons_append, scan_cut_two (by omega) hstop hcr, normalized_crlf hcr, linesFrom, if_pos rfl, hfold]
            have hhand : hand line pre.length ((pre ++ cur).length + 1) (pre ++ cur ++ [0, 0] ++ (rest ++ [0])) acc =
                line acc (cstr cur) := by
              simpa using hand_eq hblank pre cur (0 :: (rest ++ [0])) (by omega)
            rw [hhand]
            simpa [Nat.add_assoc] using hcut [0, 0] rest (by omega) (by simp; omega)
          · rw [scan_cut (by omega) hstop (.inr (.inr ⟨hcr, rfl⟩)), hand_eq hblank _ _ _ (by omega),
              normalized_cr hcr hnext, linesFrom, if_pos rfl, hfold]
            · simpa [Nat.add_assoc] using hcut [0] rest (by omega) (by simp; omega)
            · -- The NUL behind the text is no LF.
              intro h
              cases rest with
              | nil => simp at h
              | cons d rest => exact hnext (by simpa using h.2.2.2)
        · rw [normalized_char hcr]
          by_cases hc : c = 10
          · rw [scan_cut (by omega) hstop (.inr (.inl hc)) (fun h => hcr ⟨h.1, h.2.1⟩),
              hand_eq hblank _ _ _ (by omega), linesFrom, if_pos hc, hfold]
            simpa [Nat.add_assoc] using hcut [0] rest (by omega) (by simp; omega)
          · rw [scan_char (by omega) hstop hc hcr, linesFrom, if_neg hc]
            have hih := ih pre (cur ++ [c]) rest (by simp; omega) (by omega) acc (by simp)
            simpa [Nat.add_assoc] using hih

theorem scan_eq (hblank : ∀ acc, line acc [] = acc) (text : List UInt8) (acc : α) :
    scan cr stop line text.length (text.length + 1) (text ++ [0]) 0 0 acc =
      foldWhile stop line acc ((lines cr text).map cstr) := by
  exact @scan_eq_foldWhile _ cr stop line hblank _ _ [] [] text (by simp) (Nat.lt_succ_self _) acc

end

end Lib.LineScan
