import SneppxAlg.Fs.JsonGrammar

/-!
# White space, strings and numbers in the JSON parser

For each kind of lexeme: what the scan passes over splits the text, and the scan of a lexeme of the
grammar stops where the lexeme does.
-/

namespace SneppxAlg.Json

/-! ## White space -/

theorem isWs_of_isspace {b : UInt8} (h : isspace b = true) (h1 : b ≠ 0x0B) (h2 : b ≠ 0x0C) :
    isWs b = true := by
  grind [isspace, isWs]

theorem isspace_of_isWs {b : UInt8} (h : isWs b = true) :
    isspace b = true ∧ b ≠ 0x0B ∧ b ≠ 0x0C := by
  grind [isspace, isWs]

theorem takeWhile_skipWhitespace (t : List UInt8) : t = t.takeWhile isspace ++ skipWhitespace t :=
  List.takeWhile_append_dropWhile.symm

/-- The text does not start with white space. -/
def NoSpace (t : List UInt8) : Prop := ∀ b ∈ t.head?, isspace b = false

theorem skipWhitespace_append {w t : List UInt8} (hw : Ws w) (ht : NoSpace t) :
    skipWhitespace (w ++ t) = t := by
  induction w with
  | nil =>
    cases t with
    | nil => rfl
    | cons b t => exact List.dropWhile_cons_of_neg (by simp [ht b rfl])
  | cons b w ih =>
    have hb := (isspace_of_isWs (hw b List.mem_cons_self)).1
    rw [List.cons_append, skipWhitespace, List.dropWhile_cons_of_pos hb]
    exact ih fun c hc => hw c (List.mem_cons_of_mem b hc)

/-! ## Strings -/

theorem scanString_quote (rest : List UInt8) : scanString (0x22 :: rest) = some ([], rest) := by
  rw [scanString.eq_def]
  simp

theorem scanString_escape (c : UInt8) (rest : List UInt8) :
    scanString (0x5C :: c :: rest) = (scanString rest).map fun (raw, t) => (0x5C :: c :: raw, t) := by
  rw [scanString.eq_def]
  simp

theorem scanString_plain {b : UInt8} (h1 : b ≠ 0x22) (h2 : b ≠ 0x5C) (rest : List UInt8) :
    scanString (b :: rest) = (scanString rest).map fun (raw, t) => (b :: raw, t) := by
  rw [scanString.eq_def]
  simp [h1, h2]

theorem scanString_high {c : List UInt8} (hc : ∀ b ∈ c, 0x80 ≤ b) (t : List UInt8) :
    scanString (c ++ t) = (scanString t).map fun (raw, r) => (c ++ raw, r) := by
  induction c with
  | nil => simp
  | cons b c ih =>
    have hb : (0x80 : UInt8) ≤ b := hc b List.mem_cons_self
    have h1 : b ≠ 0x22 := by rintro rfl; exact absurd hb (by decide)
    have h2 : b ≠ 0x5C := by rintro rfl; exact absurd hb (by decide)
    rw [List.cons_append, scanString_plain h1 h2, ih fun x hx => hc x (List.mem_cons_of_mem b hx),
      Option.map_map]
    rfl

theorem le_of_isCont {b : UInt8} (h : isCont b = true) : 0x80 ≤ b := by
  simp only [isCont, Bool.and_eq_true, decide_eq_true_eq] at h
  exact h.1

theorem Utf8.high {c : List UInt8} (h : Utf8 c) : ∀ b ∈ c, 0x80 ≤ b := by
  cases h with
  | two a b ha _ hb =>
    have ha : (0x80 : UInt8) ≤ a := UInt8.le_trans (show (0x80 : UInt8) ≤ 0xC2 by decide) ha
    simp [ha, le_of_isCont hb]
  | three a b c ha _ hb _ _ hc =>
    have ha : (0x80 : UInt8) ≤ a := UInt8.le_trans (show (0x80 : UInt8) ≤ 0xE0 by decide) ha
    simp [ha, le_of_isCont hb, le_of_isCont hc]
  | four a b c d ha _ hb _ _ hc hd =>
    have ha : (0x80 : UInt8) ≤ a := UInt8.le_trans (show (0x80 : UInt8) ≤ 0xF0 by decide) ha
    simp [ha, le_of_isCont hb, le_of_isCont hc, le_of_isCont hd]

theorem isHex_ne {h : UInt8} (hh : (jsonHexval h).isSome) : h ≠ 0x22 ∧ h ≠ 0x5C := by
  grind [jsonHexval]

/-- The scan of a string of the grammar ends at its closing quote. -/
theorem scanString_complete {raw : List UInt8} (h : Chars raw) (r : List UInt8) :
    scanString (raw ++ 0x22 :: r) = some (raw, r) := by
  induction h with
  | nil => exact scanString_quote r
  | plain b l _ _ h1 h2 _ ih =>
    rw [List.cons_append, scanString_plain h1 h2, ih]
    rfl
  | multi c l hc _ ih =>
    rw [List.append_assoc, scanString_high hc.high, ih]
    rfl
  | escape c l _ _ ih =>
    rw [List.cons_append, List.cons_append, scanString_escape, ih]
    rfl
  | unicode h₁ h₂ h₃ h₄ l hh _ ih =>
    have hne : ∀ h ∈ [h₁, h₂, h₃, h₄], h ≠ 0x22 ∧ h ≠ 0x5C := fun h hm => isHex_ne (hh h hm)
    simp only [List.mem_cons, List.not_mem_nil, or_false, forall_eq_or_imp, forall_eq] at hne
    obtain ⟨⟨a1, a2⟩, ⟨b1, b2⟩, ⟨c1, c2⟩, d1, d2⟩ := hne
    simp only [List.cons_append]
    rw [scanString_escape, scanString_plain a1 a2, scanString_plain b1 b2, scanString_plain c1 c2,
      scanString_plain d1 d2, ih]
    rfl

/-! ## Numbers -/

theorem scanExp_letter {b : UInt8} (h : b = 0x65 ∨ b = 0x45) (t : List UInt8) :
    scanExp (b :: t) =
      (some (b, (optByte [0x2B, 0x2D] t).1, (optByte [0x2B, 0x2D] t).2.takeWhile isdigit),
        (optByte [0x2B, 0x2D] t).2.dropWhile isdigit) := by
  rw [scanExp, if_pos h]

theorem scanExp_other {b : UInt8} (h : ¬ (b = 0x65 ∨ b = 0x45)) (t : List UInt8) :
    scanExp (b :: t) = (none, b :: t) := by
  rw [scanExp, if_neg h]

/-! ### The end of the conversion -/

theorem lower_digit {d : UInt8} (h : isdigit d = true) : lower d = d ∧ d ≠ 0x69 ∧ d ≠ 0x6E := by
  grind [isdigit, lower]

theorem afterWord_digit {d c : UInt8} {u word : List UInt8} (hd : isdigit d = true)
    (hc : isdigit c = false) : afterWord (c :: word) (d :: u) = none := by
  refine if_neg fun h => ?_
  have : lower d = c := by simpa using congrArg List.head? h
  rw [(lower_digit hd).1] at this
  rw [this, hc] at hd
  cases hd

theorem afterMantissa_digit {d : UInt8} {u : List UInt8} (hd : isdigit d = true) :
    afterMantissa isdigit (d :: u) = some (scanFrac ((d :: u).dropWhile isdigit)).2 := by
  have hne : ((d :: u).takeWhile isdigit).isEmpty = false := by
    rw [List.takeWhile_cons_of_pos hd]
    rfl
  unfold afterMantissa
  cases hD : (d :: u).dropWhile isdigit with
  | nil => simp [hne, scanFrac]
  | cons b v =>
    by_cases hb : b = 0x2E
    · simp [hb, hne, scanFrac]
    · simp [hb, hne, scanFrac]

theorem optByte_minus {c : UInt8} (hc : c = 0x2D ∨ isdigit c = true) (t : List UInt8) :
    optByte [0x2B, 0x2D] (c :: t) = optByte [0x2D] (c :: t) := by
  rcases hc with rfl | hc
  · rfl
  · have h : c ≠ 0x2B ∧ c ≠ 0x2D := by grind [isdigit]
    rw [optByte, optByte, if_neg (by simp [h.1, h.2]), if_neg (by simp [h.2])]

/-- Where the integer part has a digit and is not hexadecimal, `strtod` converts the same digits as the
scan, and the exponent if it has a digit. -/
theorem strtodEnd_of_afterHex {c d : UInt8} {t u : List UInt8} (hc : c = 0x2D ∨ isdigit c = true)
    (hu : (optByte [0x2D] (c :: t)).2 = d :: u) (hd : isdigit d = true)
    (hx : afterHex (d :: u) = none) :
    strtodEnd (c :: t) = afterExp 0x65 (scanFrac ((d :: u).dropWhile isdigit)).2 := by
  have h1 : ∀ word, afterWord (0x69 :: word) (d :: u) = none := fun word =>
    afterWord_digit hd (by decide)
  have h2 : afterNan (d :: u) = none := by
    rw [afterNan, afterWord_digit hd (by decide)]
    rfl
  simp only [strtodEnd, optByte_minus hc, hu, h1, h2, hx, afterMantissa_digit hd]

theorem length_dropWhile_le {α : Type*} (p : α → Bool) (l : List α) :
    (l.dropWhile p).length ≤ l.length := (List.dropWhile_suffix p).length_le

theorem lower_e {e : UInt8} (h : e = 0x65 ∨ e = 0x45) : lower e = 0x65 := by
  rcases h with rfl | rfl <;> decide

/-! ### Numbers of the grammar -/

theorem follow_byte {b : UInt8} (h : isWs b = true ∨ b = 0x2C ∨ b = 0x5D ∨ b = 0x7D) :
    isdigit b = false ∧ b ≠ 0x2E ∧ ¬ (b = 0x65 ∨ b = 0x45) := by
  grind [isdigit, isWs]

/-- The text does not start with a digit. -/
def NoDigit (t : List UInt8) : Prop := ∀ b ∈ t.head?, isdigit b = false

theorem takeWhile_digits {ds t : List UInt8} (hd : ∀ b ∈ ds, isdigit b = true) (ht : NoDigit t) :
    (ds ++ t).takeWhile isdigit = ds ∧ (ds ++ t).dropWhile isdigit = t := by
  have h : t.takeWhile isdigit = [] ∧ t.dropWhile isdigit = t := by
    cases t with
    | nil => exact ⟨rfl, rfl⟩
    | cons b t =>
      have hb : ¬ isdigit b = true := by simp [ht b rfl]
      exact ⟨List.takeWhile_cons_of_neg hb, List.dropWhile_cons_of_neg hb⟩
  rw [List.takeWhile_append_of_pos hd, List.dropWhile_append_of_pos hd, h.1, h.2, List.append_nil]
  exact ⟨rfl, rfl⟩

theorem IsInt.digits {int : List UInt8} (h : IsInt int) : ∀ b ∈ int, isdigit b = true := by
  cases h with
  | zero => simp; decide
  | pos d ds hd _ hds => simpa using ⟨hd, hds⟩

theorem optByte_exp {sign ds t : List UInt8} (hs : sign = [] ∨ sign = [0x2B] ∨ sign = [0x2D])
    (hd : Digits ds) : optByte [0x2B, 0x2D] (sign ++ (ds ++ t)) = (sign, ds ++ t) := by
  rcases hs with rfl | rfl | rfl
  · obtain ⟨d, ds, rfl⟩ := List.exists_cons_of_ne_nil hd.1
    have hdig := hd.2 d List.mem_cons_self
    have hne : d ≠ 0x2B ∧ d ≠ 0x2D := by
      constructor <;> (rintro rfl; exact absurd hdig (by decide))
    exact if_neg (by simp [hne.1, hne.2])
  · rfl
  · rfl

theorem scanExp_complete {exp t : List UInt8} (h : IsExp exp) (ht : Follow t) :
    (scanExp (exp ++ t)).2 = t := by
  have hnd : NoDigit t := fun b hb => (follow_byte (ht b hb)).1
  cases h with
  | none =>
    cases t with
    | nil => rfl
    | cons b t =>
      rw [List.nil_append, scanExp_other (follow_byte (ht b rfl)).2.2]
  | some e sign ds he hs hd =>
    rw [List.cons_append, List.append_assoc, scanExp_letter he, optByte_exp hs hd]
    exact (takeWhile_digits hd.2 hnd).2

theorem scanFrac_complete {frac t : List UInt8} (h : IsFrac frac) (ht : NoDigit t)
    (hdot : ∀ b ∈ t.head?, b ≠ 0x2E) : (scanFrac (frac ++ t)).2 = t := by
  cases h with
  | none =>
    cases t with
    | nil => rfl
    | cons b t =>
      have hb : b ≠ 0x2E := hdot b rfl
      simp [scanFrac, hb]
  | some ds hd =>
    rw [List.cons_append, scanFrac, if_pos rfl]
    exact (takeWhile_digits hd.2 ht).2

theorem head?_exp {exp t : List UInt8} (h : IsExp exp) (ht : Follow t) :
    ∀ b ∈ (exp ++ t).head?, isdigit b = false ∧ b ≠ 0x2E := by
  intro b hb
  cases h with
  | none => exact ⟨(follow_byte (ht b hb)).1, (follow_byte (ht b hb)).2.1⟩
  | some e sign ds he =>
    obtain rfl : e = b := by simpa using hb
    rcases he with rfl | rfl <;> decide

theorem head?_frac {frac t : List UInt8} (h : IsFrac frac) (ht : NoDigit t) :
    NoDigit (frac ++ t) := by
  intro b hb
  cases h with
  | none => exact ht b hb
  | some ds =>
    obtain rfl : 0x2E = b := by simpa using hb
    decide

theorem IsInt.ne_nil {int : List UInt8} (h : IsInt int) : int ≠ [] := by
  cases h with
  | zero | pos => simp

/-- The sign of a number of the grammar. -/
theorem optByte_number {minus int t : List UInt8} (hminus : minus = [] ∨ minus = [0x2D])
    (hint : IsInt int) : optByte [0x2D] (minus ++ (int ++ t)) = (minus, int ++ t) := by
  rcases hminus with rfl | rfl
  · obtain ⟨d, ds, rfl⟩ := List.exists_cons_of_ne_nil hint.ne_nil
    have hdig := hint.digits d List.mem_cons_self
    have hne : d ≠ 0x2D := by rintro rfl; exact absurd hdig (by decide)
    exact if_neg (by simp [hne])
  · rfl

/-- The scan of a number of the grammar stops where the number does. -/
theorem scanNumber_complete {minus int frac exp t : List UInt8} (hminus : minus = [] ∨ minus = [0x2D])
    (hint : IsInt int) (hfrac : IsFrac frac) (hexp : IsExp exp) (ht : Follow t) :
    (scanNumber (minus ++ (int ++ (frac ++ (exp ++ t))))).rest = t := by
  have hX := head?_exp hexp ht
  have hnd : NoDigit (exp ++ t) := fun b hb => (hX b hb).1
  have hi := takeWhile_digits hint.digits (head?_frac hfrac hnd)
  have hf := scanFrac_complete hfrac hnd fun b hb => (hX b hb).2
  have he := scanExp_complete hexp ht
  simp only [scanNumber, optByte_number hminus hint, hi.2, hf, he]

theorem parseNumber_complete {l t r : List UInt8} {v : JsonValue} (hl : IsNumber l) (ht : Follow t)
    (h : parseNumber (l ++ t) = some (v, r)) : r = t := by
  obtain ⟨minus, int, frac, exp, hminus, hint, hfrac, hexp⟩ := hl
  have hrest := scanNumber_complete hminus hint hfrac hexp ht
  unfold parseNumber at h
  simp only [List.append_assoc, hrest] at h
  split at h
  · exact (Prod.mk.inj (Option.some.inj h)).2.symm
  · cases h

/-- How a number starts. -/
theorem IsNumber.head {l : List UInt8} (h : IsNumber l) : ∃ c u, l = c :: u ∧ (c = 0x2D ∨ isdigit c = true) := by
  obtain ⟨minus, int, frac, exp, hminus, hint, -, -⟩ := h
  rcases hminus with rfl | rfl
  · obtain ⟨d, ds, rfl⟩ := List.exists_cons_of_ne_nil hint.ne_nil
    exact ⟨d, _, rfl, .inr (hint.digits d List.mem_cons_self)⟩
  · exact ⟨0x2D, _, rfl, .inl rfl⟩

end SneppxAlg.Json
