import SneppxAlg.Fs.JsonCorrect
import SneppxAlg.Fs.JsonEscapes

/-!
# The parser returns the tree of every text

`Denotes` is followed twice. With the parser's own reading of strings, the parser accepts the text and
returns the tree (`parseValue_denotes`). The trees of the two readings are then compared: they differ as
soon as one string has a `\u0000`, at which the C string ends, or a pair of surrogates, which the parser
encodes one by one.

Main result: `jsonParse_denotes_iff`.
-/

namespace SneppxAlg.Json

/-! ## Numbers -/

/-- No hexadecimal number starts with an integer of the grammar. -/
theorem afterHex_int {int t : List UInt8} (h : IsInt int) (ht : ∀ b ∈ t.head?, lower b ≠ 0x78) :
    afterHex (int ++ t) = none := by
  cases h with
  | zero =>
    cases t with
    | nil => rfl
    | cons x t => exact if_neg (ht x rfl)
  | pos d ds hd h0 _ =>
    unfold afterHex
    split
    · next x t heq => exact absurd (List.cons.inj heq).1 h0
    · rfl

theorem lower_follow {b : UInt8} (h : isWs b = true ∨ b = 0x2C ∨ b = 0x5D ∨ b = 0x7D) :
    lower b ≠ 0x78 ∧ lower b ≠ 0x65 := by
  grind [isWs, lower]

theorem head_not_x {frac exp t : List UInt8} (hfrac : IsFrac frac) (hexp : IsExp exp) (ht : Follow t) :
    ∀ b ∈ (frac ++ (exp ++ t)).head?, lower b ≠ 0x78 := by
  intro b hb
  cases hfrac with
  | some ds =>
    obtain rfl : 0x2E = b := by simpa using hb
    decide
  | none =>
    cases hexp with
    | none => exact (lower_follow (ht b hb)).1
    | some e sign ds he =>
      obtain rfl : e = b := by simpa using hb
      rcases he with rfl | rfl <;> decide

theorem afterExp_complete {exp t : List UInt8} (h : IsExp exp) (ht : Follow t) :
    afterExp 0x65 (exp ++ t) = t := by
  cases h with
  | none =>
    cases t with
    | nil => rfl
    | cons b t => exact if_neg (lower_follow (ht b rfl)).2
  | some e sign ds he hs hd =>
    have hnd : NoDigit t := fun b hb => (follow_byte (ht b hb)).1
    obtain ⟨htake, hdrop⟩ := takeWhile_digits hd.2 hnd
    obtain ⟨d, ds', hds⟩ := List.exists_cons_of_ne_nil hd.1
    rw [List.cons_append, List.append_assoc, afterExp, if_pos (lower_e he)]
    simp only [optByte_exp hs hd, htake, hdrop]
    rw [hds]

theorem digit_integer {b : UInt8} (h : isdigit b = true) : (b != 0x2E && b != 0x65 && b != 0x45) = true := by
  have hne : b ≠ 0x2E ∧ b ≠ 0x65 ∧ b ≠ 0x45 := by grind [isdigit]
  simp [hne]

section Number

variable {minus int frac exp t : List UInt8} (hminus : minus = [] ∨ minus = [0x2D]) (hint : IsInt int)
  (hfrac : IsFrac frac) (hexp : IsExp exp)

include hminus hint hfrac hexp

/-- A number is an integer if it has no fraction and no exponent. -/
theorem all_integer :
    (minus ++ (int ++ (frac ++ exp))).all (fun b => b != 0x2E && b != 0x65 && b != 0x45)
      = (frac.isEmpty && exp.isEmpty) := by
  have hm : minus.all (fun b => b != 0x2E && b != 0x65 && b != 0x45) = true := by
    rcases hminus with rfl | rfl <;> rfl
  have hi : int.all (fun b => b != 0x2E && b != 0x65 && b != 0x45) = true :=
    List.all_eq_true.2 fun b hb => digit_integer (hint.digits b hb)
  rw [List.all_append, List.all_append, List.all_append, hm, hi, Bool.true_and, Bool.true_and]
  cases hfrac with
  | some ds => simp
  | none =>
    cases hexp with
    | none => rfl
    | some e sign ds he => rcases he with rfl | rfl <;> simp

variable (ht : Follow t)

include ht

theorem strtodEnd_number :
    strtodEnd (minus ++ (int ++ (frac ++ (exp ++ t)))) = t := by
  have hX := head?_exp hexp ht
  have hnd : NoDigit (exp ++ t) := fun b hb => (hX b hb).1
  have hopt := optByte_number (t := frac ++ (exp ++ t)) hminus hint
  have hdrop := (takeWhile_digits hint.digits (head?_frac hfrac hnd)).2
  have hhex := afterHex_int hint (head_not_x hfrac hexp ht)
  obtain ⟨d, ds, hds⟩ := List.exists_cons_of_ne_nil hint.ne_nil
  have hd : isdigit d = true := hint.digits d (hds ▸ List.mem_cons_self)
  rw [hds] at hopt hdrop hhex ⊢
  obtain ⟨c, u, hcu, hc⟩ : ∃ c u, minus ++ (d :: ds ++ (frac ++ (exp ++ t))) = c :: u ∧
      (c = 0x2D ∨ isdigit c = true) := by
    rcases hminus with rfl | rfl
    · exact ⟨d, _, rfl, .inr hd⟩
    · exact ⟨0x2D, _, rfl, .inl rfl⟩
  rw [hcu] at hopt ⊢
  rw [List.cons_append] at hopt hdrop hhex
  rw [strtodEnd_of_afterHex hc (congrArg Prod.snd hopt) hd hhex, hdrop,
    scanFrac_complete hfrac hnd fun b hb => (hX b hb).2, afterExp_complete hexp ht]

/-- A number of the grammar is accepted. -/
theorem parseNumber_number :
    parseNumber (minus ++ (int ++ (frac ++ exp)) ++ t)
      = some (.number (minus ++ (int ++ (frac ++ exp))) (frac.isEmpty && exp.isEmpty), t) := by
  have happ : minus ++ (int ++ (frac ++ exp)) ++ t = minus ++ (int ++ (frac ++ (exp ++ t))) := by
    simp only [List.append_assoc]
  have hrest := scanNumber_complete hminus hint hfrac hexp ht
  have htake : (minus ++ (int ++ (frac ++ exp)) ++ t).take
      ((minus ++ (int ++ (frac ++ exp)) ++ t).length - t.length) = minus ++ (int ++ (frac ++ exp)) := by
    rw [List.length_append, Nat.add_sub_cancel, List.take_left]
  rw [← happ] at hrest
  unfold parseNumber
  simp only [hrest, htake, all_integer hminus hint hfrac hexp]
  rw [happ, strtodEnd_number hminus hint hfrac hexp ht, if_pos rfl]

end Number

/-! ## Following a derivation with a tree -/

/-- The parser's reading of the characters of a string. -/
def Unescaped (raw value : List UInt8) : Prop := Chars raw ∧ value = unescapeString raw

/-- The parser returns the value and stops behind the text. -/
def ValueParses (n : ℕ) (l : List UInt8) (v : JsonValue) : Prop :=
  Value l ∧ ∀ w t, Ws w → Follow t → parseValue n (w ++ (l ++ t)) = some (v, t)

/-- The same for the elements of an array, from behind the white space before the first one. -/
def ElementsParse (n : ℕ) (l : List UInt8) (items : List JsonValue) : Prop :=
  Elements l ∧ ∀ k w t, (skipWhitespace (l ++ 0x5D :: t)).length ≤ k → Ws w →
    arrayLoop (parseValue n) k (w ++ skipWhitespace (l ++ 0x5D :: t)) = some (items, t)

def MembersParse (n : ℕ) (l : List UInt8) (pairs : List (List UInt8 × JsonValue)) : Prop :=
  Members l ∧ ∀ k w t, (skipWhitespace (l ++ 0x7D :: t)).length ≤ k → Ws w →
    objectLoop (parseValue n) k (w ++ skipWhitespace (l ++ 0x7D :: t)) = some (pairs, t)

/-- `parse_value` behind the white space. -/
theorem parseValue_cons {n : ℕ} {w u r : List UInt8} {c : UInt8} {v : JsonValue}
    (hw : Ws w) (hc : isspace c = false)
    (h : (if c = 0x7B then parseObject (parseValue n) u
      else if c = 0x5B then parseArray (parseValue n) u
      else if c = 0x22 then parseString u
      else if c = 0x2D ∨ (0x30 ≤ c ∧ c ≤ 0x39) then parseNumber (c :: u)
      else if c = 0x74 ∨ c = 0x66 ∨ c = 0x6E then parseLiteral (c :: u)
      else none) = some (v, r)) :
    parseValue (n + 1) (w ++ c :: u) = some (v, r) := by
  rw [parseValue, skipWhitespace_append hw (noSpace_cons hc)]
  exact h

theorem parses_literal {n : ℕ} {l l' : List UInt8} {c : UInt8} {v : JsonValue} (hl : l = c :: l')
    (hc : c = 0x74 ∨ c = 0x66 ∨ c = 0x6E) (hval : Value l)
    (hp : ∀ t, parseLiteral (l ++ t) = some (v, t)) : ValueParses (n + 1) l v := by
  refine ⟨hval, fun w t hw _ => ?_⟩
  subst hl
  have hsp : isspace c = false ∧ c ≠ 0x7B ∧ c ≠ 0x5B ∧ c ≠ 0x22 ∧
      ¬ (c = 0x2D ∨ (0x30 ≤ c ∧ c ≤ 0x39)) := by
    rcases hc with rfl | rfl | rfl <;> decide
  apply parseValue_cons hw hsp.1
  rw [if_neg hsp.2.1, if_neg hsp.2.2.1, if_neg hsp.2.2.2.1, if_neg hsp.2.2.2.2, if_pos hc]
  exact hp t

theorem number_byte {c : UInt8} (h : c = 0x2D ∨ isdigit c = true) :
    isspace c = false ∧ c ≠ 0x7B ∧ c ≠ 0x5B ∧ c ≠ 0x22 ∧ (c = 0x2D ∨ (0x30 ≤ c ∧ c ≤ 0x39)) := by
  grind [isdigit, isspace]

theorem parses_number {n : ℕ} {minus int frac exp : List UInt8} (hminus : minus = [] ∨ minus = [0x2D])
    (hint : IsInt int) (hfrac : IsFrac frac) (hexp : IsExp exp) :
    ValueParses (n + 1) (minus ++ (int ++ (frac ++ exp)))
      (.number (minus ++ (int ++ (frac ++ exp))) (frac.isEmpty && exp.isEmpty)) := by
  have hnum := IsNumber.mk _ _ _ _ hminus hint hfrac hexp
  refine ⟨.number _ hnum, fun w t hw ht => ?_⟩
  have hp := parseNumber_number hminus hint hfrac hexp ht
  obtain ⟨c, u, hcu, hc⟩ := hnum.head
  obtain ⟨hsp, h1, h2, h3, h4⟩ := number_byte hc
  rw [hcu, List.cons_append] at hp ⊢
  apply parseValue_cons hw hsp
  rw [if_neg h1, if_neg h2, if_neg h3, if_pos h4]
  exact hp

theorem parses_string {n : ℕ} {l v : List UInt8} (h : Unescaped l v) :
    ValueParses (n + 1) (0x22 :: (l ++ [0x22])) (.string v) := by
  refine ⟨.string l h.1, fun w t hw _ => ?_⟩
  rw [List.cons_append]
  apply parseValue_cons hw (by decide)
  rw [if_neg (by decide), if_neg (by decide), if_pos rfl, parseString, List.append_assoc,
    List.singleton_append, scanString_complete h.1, Option.map_some, h.2]

theorem parses_emptyArray {n : ℕ} {w₁ : List UInt8} (h₁ : Ws w₁) :
    ValueParses (n + 1) (0x5B :: (w₁ ++ [0x5D])) (.array []) := by
  refine ⟨.emptyArray w₁ h₁, fun w t hw _ => ?_⟩
  rw [List.cons_append]
  apply parseValue_cons hw (by decide)
  rw [if_neg (by decide), if_pos rfl, parseArray, List.append_assoc, List.singleton_append,
    skipWhitespace_append h₁ (noSpace_cons (by decide))]
  exact if_pos rfl

theorem parses_emptyObject {n : ℕ} {w₁ : List UInt8} (h₁ : Ws w₁) :
    ValueParses (n + 1) (0x7B :: (w₁ ++ [0x7D])) (.object []) := by
  refine ⟨.emptyObject w₁ h₁, fun w t hw _ => ?_⟩
  rw [List.cons_append]
  apply parseValue_cons hw (by decide)
  rw [if_pos rfl, parseObject, List.append_assoc, List.singleton_append,
    skipWhitespace_append h₁ (noSpace_cons (by decide))]
  exact if_pos rfl

theorem parses_array {n : ℕ} {l : List UInt8} {items : List JsonValue} (ih : ElementsParse n l items) :
    ValueParses (n + 1) (0x5B :: (l ++ [0x5D])) (.array items) := by
  refine ⟨.array l ih.1, fun w t hw _ => ?_⟩
  obtain ⟨w₁, hw₁, c, u, -, hskip, hc⟩ := elements_start ih.1 (0x5D :: t)
  have hloop := ih.2 (u.length + 2) [] t (by rw [hskip]; simp) (List.forall_mem_nil _)
  rw [List.nil_append, hskip] at hloop
  rw [List.cons_append]
  apply parseValue_cons hw (by decide)
  rw [if_neg (by decide), if_pos rfl, parseArray, List.append_assoc, List.singleton_append, hskip]
  dsimp only
  rw [if_neg hc, hloop, Option.map_some]

theorem parses_object {n : ℕ} {l : List UInt8} {pairs : List (List UInt8 × JsonValue)}
    (ih : MembersParse n l pairs) : ValueParses (n + 1) (0x7B :: (l ++ [0x7D])) (.object pairs) := by
  refine ⟨.object l ih.1, fun w t hw _ => ?_⟩
  obtain ⟨w₁, hw₁, u, -, hskip⟩ := members_start ih.1 (0x7D :: t)
  have hloop := ih.2 (u.length + 2) [] t (by rw [hskip]; simp) (List.forall_mem_nil _)
  rw [List.nil_append, hskip] at hloop
  rw [List.cons_append]
  apply parseValue_cons hw (by decide)
  rw [if_pos rfl, parseObject, List.append_assoc, List.singleton_append, hskip]
  dsimp only
  rw [if_neg (by decide), hloop, Option.map_some]

/-- The last element of an array. -/
theorem arrayLoop_close {n j : ℕ} {w l w' t : List UInt8} {v : JsonValue} (hw : Ws w)
    (hv : ValueParses n l v) (hw' : Ws w') :
    arrayLoop (parseValue n) (j + 1) (w ++ (l ++ (w' ++ 0x5D :: t))) = some ([v], t) := by
  rw [arrayLoop, hv.2 w (w' ++ 0x5D :: t) hw (follow_ws hw' (follow_bracket t))]
  simp only [Option.bind_eq_bind, Option.bind_some,
    skipWhitespace_append hw' (noSpace_cons (by decide) : NoSpace (0x5D :: t)), if_true]

/-- An element of an array with more elements. -/
theorem arrayLoop_comma {n j : ℕ} {w l w' t r : List UInt8} {v : JsonValue} {items : List JsonValue}
    (hw : Ws w) (hv : ValueParses n l v) (hw' : Ws w') (h : arrayLoop (parseValue n) j t = some (items, r)) :
    arrayLoop (parseValue n) (j + 1) (w ++ (l ++ (w' ++ 0x2C :: t))) = some (v :: items, r) := by
  have hne : (0x2C : UInt8) ≠ 0x5D := by decide
  rw [arrayLoop, hv.2 w (w' ++ 0x2C :: t) hw (follow_ws hw' (follow_comma t))]
  simp only [Option.bind_eq_bind, Option.bind_some,
    skipWhitespace_append hw' (noSpace_cons (by decide) : NoSpace (0x2C :: t)), hne, if_true, if_false, h]

theorem elements_parse_one {n : ℕ} {w₁ l w' : List UInt8} {v : JsonValue} (h₁ : Ws w₁)
    (hv : ValueParses n l v) (hw' : Ws w') : ElementsParse n (w₁ ++ (l ++ w')) [v] := by
  refine ⟨.one _ _ _ h₁ hv.1 hw', fun k w t hk hw => ?_⟩
  simp only [List.append_assoc] at hk ⊢
  rw [skipWhitespace_append h₁ (value_noSpace hv.1 _)] at hk ⊢
  cases k with
  | zero => simp at hk
  | succ j => exact arrayLoop_close hw hv hw'

theorem elements_parse_more {n : ℕ} {w₁ l w' rest : List UInt8} {v : JsonValue}
    {items : List JsonValue} (h₁ : Ws w₁) (hv : ValueParses n l v) (hw' : Ws w')
    (ih : ElementsParse n rest items) :
    ElementsParse n (w₁ ++ (l ++ (w' ++ 0x2C :: rest))) (v :: items) := by
  refine ⟨.more _ _ _ _ h₁ hv.1 hw' ih.1, fun k w t hk hw => ?_⟩
  simp only [List.append_assoc, List.cons_append] at hk ⊢
  rw [skipWhitespace_append h₁ (value_noSpace hv.1 _)] at hk ⊢
  cases k with
  | zero => simp at hk
  | succ j =>
    obtain ⟨w₂, hw₂, c, u, hsplit, hskip, -⟩ := elements_start ih.1 (0x5D :: t)
    have hj : (skipWhitespace (rest ++ 0x5D :: t)).length ≤ j := by
      have := length_skipWhitespace_le (rest ++ 0x5D :: t)
      simp only [List.length_append, List.length_cons] at hk this ⊢
      omega
    have hloop := ih.2 j w₂ t hj hw₂
    rw [hskip, ← hsplit] at hloop
    exact arrayLoop_comma hw hv hw' hloop

section Members

variable {n j : ℕ} {w k w₁ w₂ l w' t name : List UInt8} {v : JsonValue} (hw : Ws w)
  (hk : Unescaped k name) (hw₁ : Ws w₁) (hw₂ : Ws w₂) (hv : ValueParses n l v) (hw' : Ws w')

include hw hk hw₁ hw₂ hv hw'

/-- The last member of an object. -/
theorem objectLoop_close :
    objectLoop (parseValue n) (j + 1)
        (w ++ 0x22 :: (k ++ 0x22 :: (w₁ ++ 0x3A :: (w₂ ++ (l ++ (w' ++ 0x7D :: t))))))
      = some ([(name, v)], t) := by
  have hp := hv.2 w₂ (w' ++ 0x7D :: t) hw₂ (follow_ws hw' (follow_brace t))
  have hq : ∀ u : List UInt8, NoSpace (0x22 :: u) := fun u => noSpace_cons (by decide)
  have hcol : ∀ u : List UInt8, NoSpace (0x3A :: u) := fun u => noSpace_cons (by decide)
  simp only [objectLoop, skipWhitespace_append hw (hq _), expect, if_true, scanString_complete hk.1,
    skipWhitespace_append hw₁ (hcol _), Option.bind_eq_bind, Option.bind_some, hp,
    skipWhitespace_append hw' (noSpace_cons (by decide) : NoSpace (0x7D :: t)), hk.2]

/-- A member of an object with more members. -/
theorem objectLoop_comma {r : List UInt8} {pairs : List (List UInt8 × JsonValue)}
    (h : objectLoop (parseValue n) j t = some (pairs, r)) :
    objectLoop (parseValue n) (j + 1)
        (w ++ 0x22 :: (k ++ 0x22 :: (w₁ ++ 0x3A :: (w₂ ++ (l ++ (w' ++ 0x2C :: t))))))
      = some ((name, v) :: pairs, r) := by
  have hp := hv.2 w₂ (w' ++ 0x2C :: t) hw₂ (follow_ws hw' (follow_comma t))
  have hq : ∀ u : List UInt8, NoSpace (0x22 :: u) := fun u => noSpace_cons (by decide)
  have hcol : ∀ u : List UInt8, NoSpace (0x3A :: u) := fun u => noSpace_cons (by decide)
  have hne : (0x2C : UInt8) ≠ 0x7D := by decide
  simp only [objectLoop, skipWhitespace_append hw (hq _), expect, if_true, scanString_complete hk.1,
    skipWhitespace_append hw₁ (hcol _), Option.bind_eq_bind, Option.bind_some, hp,
    skipWhitespace_append hw' (noSpace_cons (by decide) : NoSpace (0x2C :: t)), hk.2, hne, if_false, h]

theorem members_parse_one :
    MembersParse n (w ++ 0x22 :: (k ++ 0x22 :: (w₁ ++ 0x3A :: (w₂ ++ (l ++ w'))))) [(name, v)] := by
  refine ⟨.one _ _ _ _ _ _ hw hk.1 hw₁ hw₂ hv.1 hw', fun i w₀ t hi hw₀ => ?_⟩
  simp only [List.append_assoc, List.cons_append] at hi ⊢
  rw [skipWhitespace_append hw (noSpace_cons (by decide))] at hi ⊢
  cases i with
  | zero => simp at hi
  | succ j => exact objectLoop_close hw₀ hk hw₁ hw₂ hv hw'

theorem members_parse_more {rest : List UInt8} {pairs : List (List UInt8 × JsonValue)}
    (ih : MembersParse n rest pairs) :
    MembersParse n (w ++ 0x22 :: (k ++ 0x22 :: (w₁ ++ 0x3A :: (w₂ ++ (l ++ (w' ++ 0x2C :: rest))))))
      ((name, v) :: pairs) := by
  refine ⟨.more _ _ _ _ _ _ _ hw hk.1 hw₁ hw₂ hv.1 hw' ih.1, fun i w₀ t hi hw₀ => ?_⟩
  simp only [List.append_assoc, List.cons_append] at hi ⊢
  rw [skipWhitespace_append hw (noSpace_cons (by decide))] at hi ⊢
  cases i with
  | zero => simp at hi
  | succ j =>
    obtain ⟨w₃, hw₃, u, hsplit, hskip⟩ := members_start ih.1 (0x7D :: t)
    have hj : (skipWhitespace (rest ++ 0x7D :: t)).length ≤ j := by
      have := length_skipWhitespace_le (rest ++ 0x7D :: t)
      simp only [List.length_append, List.length_cons] at hi this ⊢
      omega
    have hloop := ih.2 j w₃ t hj hw₃
    rw [hskip, ← hsplit] at hloop
    exact objectLoop_comma hw₀ hk hw₁ hw₂ hv hw' hloop

end Members

/-- The parser accepts every value and returns its tree, in its own reading of strings. -/
theorem parseValue_denotes {n : ℕ} {l : List UInt8} {v : JsonValue} (h : Denotes Unescaped n l v) :
    ValueParses n l v :=
  @Denotes.rec Unescaped (fun n l v _ => ValueParses n l v) (fun n l items _ => ElementsParse n l items)
    (fun n l pairs _ => MembersParse n l pairs)
    (fun _ => parses_literal rfl (.inl rfl) .true fun _ => rfl)
    (fun _ => parses_literal rfl (.inr (.inl rfl)) .false fun _ => rfl)
    (fun _ => parses_literal rfl (.inr (.inr rfl)) .null fun _ => rfl)
    (fun _ _ _ _ _ hm hi hf he => parses_number hm hi hf he) (fun _ _ _ h => parses_string h)
    (fun _ _ hw => parses_emptyArray hw) (fun _ _ _ _ ih => parses_array ih)
    (fun _ _ hw => parses_emptyObject hw) (fun _ _ _ _ ih => parses_object ih)
    (fun _ _ _ _ _ hw _ hw' ih => elements_parse_one hw ih hw')
    (fun _ _ _ _ _ _ _ hw _ hw' _ ih ihl => elements_parse_more hw ih hw' ihl)
    (fun _ _ _ _ _ _ _ _ _ hw hk hw₁ hw₂ _ hw' ih => members_parse_one hw hk hw₁ hw₂ ih hw')
    (fun _ _ _ _ _ _ _ _ _ _ _ hw hk hw₁ hw₂ _ hw' _ ih ihl =>
      members_parse_more hw hk hw₁ hw₂ ih hw' ihl)
    n l v h

/-! ## The two readings of a text -/

/-- The tree of the parser's reading is the given one exactly when the escapes are simple. -/
def ValueReads (n : ℕ) (l : List UInt8) (tree : JsonValue) : Prop :=
  Splits l ∧ ∃ v, Denotes Unescaped n l v ∧ (v.seen = tree ↔ simpleEscapes l = true)

def ElementsRead (n : ℕ) (l : List UInt8) (trees : List JsonValue) : Prop :=
  Splits l ∧ ∃ items, ElementsDenote Unescaped n l items ∧ (seenItems items = trees ↔ simpleEscapes l = true)

def MembersRead (n : ℕ) (l : List UInt8) (trees : List (List UInt8 × JsonValue)) : Prop :=
  Splits l ∧ ∃ pairs, MembersDenote Unescaped n l pairs ∧
    (seenPairs pairs = trees ↔ simpleEscapes l = true)

theorem Ws.notMem {w : List UInt8} (hw : Ws w) : (0x5C : UInt8) ∉ w ∧ (0 : UInt8) ∉ w := by
  constructor
  · exact fun h => absurd (hw _ h) (by decide)
  · exact fun h => absurd (hw _ h) (by decide)

theorem Splits.simple_append {l w : List UInt8} (hl : Splits l) (hw : (0x5C : UInt8) ∉ w) :
    simpleEscapes (l ++ w) = simpleEscapes l := by
  rw [hl, (splits_of_notMem hw).1, Bool.and_true]

theorem Splits.ws {w : List UInt8} (hw : Ws w) : Splits w := (splits_of_notMem hw.notMem.1).2

theorem Splits.cons {b : UInt8} {l : List UInt8} (hb : b ≠ 0x5C) (hl : Splits l) : Splits (b :: l) := by
  intro rest
  rw [List.cons_append, simpleEscapes_plain hb, simpleEscapes_plain hb, hl]

/-- A value without escapes. -/
theorem reads_of_notMem {n : ℕ} {l : List UInt8} {v : JsonValue} (hl : (0x5C : UInt8) ∉ l)
    (hv : Denotes Unescaped n l v) (hseen : v.seen = v) : ValueReads n l v := by
  obtain ⟨hsimple, hsplits⟩ := splits_of_notMem hl
  refine ⟨hsplits, v, hv, ?_⟩
  rw [hseen, hsimple]
  exact ⟨fun _ => rfl, fun _ => rfl⟩

theorem number_bytes {minus int frac exp : List UInt8} (hminus : minus = [] ∨ minus = [0x2D])
    (hint : IsInt int) (hfrac : IsFrac frac) (hexp : IsExp exp) :
    ∀ b ∈ minus ++ (int ++ (frac ++ exp)), b ≠ 0x5C ∧ b ≠ 0 := by
  have hdigit : ∀ {b : UInt8}, isdigit b = true → b ≠ 0x5C ∧ b ≠ 0 := by
    intro b hb
    grind [isdigit]
  intro b hb
  rw [List.mem_append, List.mem_append, List.mem_append] at hb
  rcases hb with hb | hb | hb | hb
  · rcases hminus with rfl | rfl
    · cases hb
    · rw [List.mem_singleton.1 hb]
      decide
  · exact hdigit (hint.digits b hb)
  · cases hfrac with
    | none => cases hb
    | some ds hd =>
      rcases List.mem_cons.1 hb with rfl | hb
      · decide
      · exact hdigit (hd.2 b hb)
  · cases hexp with
    | none => cases hb
    | some e sign ds he hs hd =>
      rw [List.mem_cons, List.mem_append] at hb
      rcases hb with rfl | hb | hb
      · rcases he with rfl | rfl <;> decide
      · rcases hs with rfl | rfl | rfl
        · cases hb
        · rw [List.mem_singleton.1 hb]
          decide
        · rw [List.mem_singleton.1 hb]
          decide
      · exact hdigit (hd.2 b hb)

theorem reads_string {n : ℕ} {l v : List UInt8} (h : CharsDenote l v) :
    ValueReads (n + 1) (0x22 :: (l ++ [0x22])) (.string v) := by
  have hquote : (0x5C : UInt8) ∉ [(0x22 : UInt8)] := by decide
  refine ⟨.cons (by decide) (h.splits.append (splits_of_notMem hquote).2), .string (unescapeString l),
    .string n l _ ⟨h.chars, rfl⟩, ?_⟩
  rw [simpleEscapes_plain (by decide), h.splits.simple_append hquote, ← cString_unescapeString_iff h,
    JsonValue.seen, JsonValue.string.injEq]

theorem reads_array {n : ℕ} {l : List UInt8} {trees : List JsonValue} (h : ElementsRead n l trees) :
    ValueReads (n + 1) (0x5B :: (l ++ [0x5D])) (.array trees) := by
  obtain ⟨hl, items, hitems, hiff⟩ := h
  have hclose : (0x5C : UInt8) ∉ [(0x5D : UInt8)] := by decide
  refine ⟨.cons (by decide) (hl.append (splits_of_notMem hclose).2), .array items, .array n l items hitems, ?_⟩
  rw [simpleEscapes_plain (by decide), hl.simple_append hclose, ← hiff, JsonValue.seen,
    JsonValue.array.injEq]

theorem reads_object {n : ℕ} {l : List UInt8} {trees : List (List UInt8 × JsonValue)}
    (h : MembersRead n l trees) : ValueReads (n + 1) (0x7B :: (l ++ [0x7D])) (.object trees) := by
  obtain ⟨hl, pairs, hpairs, hiff⟩ := h
  have hclose : (0x5C : UInt8) ∉ [(0x7D : UInt8)] := by decide
  refine ⟨.cons (by decide) (hl.append (splits_of_notMem hclose).2), .object pairs,
    .object n l pairs hpairs, ?_⟩
  rw [simpleEscapes_plain (by decide), hl.simple_append hclose, ← hiff, JsonValue.seen,
    JsonValue.object.injEq]

theorem reads_one {n : ℕ} {w l w' : List UInt8} {tree : JsonValue} (hw : Ws w)
    (h : ValueReads n l tree) (hw' : Ws w') : ElementsRead n (w ++ (l ++ w')) [tree] := by
  obtain ⟨hl, v, hv, hiff⟩ := h
  refine ⟨(Splits.ws hw).append (hl.append (.ws hw')), [v], .one n w l w' v hw hv hw', ?_⟩
  rw [simpleEscapes_append hw.notMem.1, hl.simple_append hw'.notMem.1, ← hiff]
  simp [seenItems]

theorem reads_more {n : ℕ} {w l w' rest : List UInt8} {tree : JsonValue} {trees : List JsonValue}
    (hw : Ws w) (h : ValueReads n l tree) (hw' : Ws w') (ih : ElementsRead n rest trees) :
    ElementsRead n (w ++ (l ++ (w' ++ 0x2C :: rest))) (tree :: trees) := by
  obtain ⟨hl, v, hv, hiff⟩ := h
  obtain ⟨hrest, items, hitems, hiffs⟩ := ih
  refine ⟨(Splits.ws hw).append (hl.append ((Splits.ws hw').append (.cons (by decide) hrest))),
    v :: items, .more n w l w' rest v items hw hv hw' hitems, ?_⟩
  rw [simpleEscapes_append hw.notMem.1, hl, simpleEscapes_append hw'.notMem.1,
    simpleEscapes_plain (by decide), Bool.and_eq_true, ← hiff, ← hiffs, seenItems, List.cons.injEq]

section ReadMembers

variable {n : ℕ} {w k w₁ w₂ l w' name : List UInt8} {tree : JsonValue} (hw : Ws w)
  (hk : CharsDenote k name) (hw₁ : Ws w₁) (hw₂ : Ws w₂) (h : ValueReads n l tree) (hw' : Ws w')

include hw hk hw₁ hw₂ h hw'

theorem reads_member :
    MembersRead n (w ++ 0x22 :: (k ++ 0x22 :: (w₁ ++ 0x3A :: (w₂ ++ (l ++ w'))))) [(name, tree)] := by
  obtain ⟨hl, v, hv, hiff⟩ := h
  refine ⟨(Splits.ws hw).append (.cons (by decide) (hk.splits.append (.cons (by decide)
      ((Splits.ws hw₁).append (.cons (by decide) ((Splits.ws hw₂).append (hl.append (.ws hw')))))))),
    [(unescapeString k, v)], .one n w k w₁ w₂ l w' _ v hw ⟨hk.chars, rfl⟩ hw₁ hw₂ hv hw', ?_⟩
  rw [simpleEscapes_append hw.notMem.1, simpleEscapes_plain (by decide), hk.splits,
    simpleEscapes_plain (by decide), simpleEscapes_append hw₁.notMem.1, simpleEscapes_plain (by decide),
    simpleEscapes_append hw₂.notMem.1, hl.simple_append hw'.notMem.1, Bool.and_eq_true, ← hiff,
    ← cString_unescapeString_iff hk]
  simp [seenPairs]

theorem reads_members {rest : List UInt8} {trees : List (List UInt8 × JsonValue)}
    (ih : MembersRead n rest trees) :
    MembersRead n (w ++ 0x22 :: (k ++ 0x22 :: (w₁ ++ 0x3A :: (w₂ ++ (l ++ (w' ++ 0x2C :: rest))))))
      ((name, tree) :: trees) := by
  obtain ⟨hl, v, hv, hiff⟩ := h
  obtain ⟨hrest, pairs, hpairs, hiffs⟩ := ih
  refine ⟨(Splits.ws hw).append (.cons (by decide) (hk.splits.append (.cons (by decide)
      ((Splits.ws hw₁).append (.cons (by decide) ((Splits.ws hw₂).append (hl.append
        ((Splits.ws hw').append (.cons (by decide) hrest))))))))),
    (unescapeString k, v) :: pairs,
    .more n w k w₁ w₂ l w' rest _ v pairs hw ⟨hk.chars, rfl⟩ hw₁ hw₂ hv hw' hpairs, ?_⟩
  rw [simpleEscapes_append hw.notMem.1, simpleEscapes_plain (by decide), hk.splits,
    simpleEscapes_plain (by decide), simpleEscapes_append hw₁.notMem.1, simpleEscapes_plain (by decide),
    simpleEscapes_append hw₂.notMem.1, hl, simpleEscapes_append hw'.notMem.1,
    simpleEscapes_plain (by decide), Bool.and_eq_true, Bool.and_eq_true, ← hiff, ← hiffs,
    ← cString_unescapeString_iff hk]
  simp [seenPairs, and_assoc]

end ReadMembers

theorem denotes_reads {n : ℕ} {l : List UInt8} {tree : JsonValue} (h : Denotes CharsDenote n l tree) :
    ValueReads n l tree :=
  @Denotes.rec CharsDenote (fun n l v _ => ValueReads n l v) (fun n l items _ => ElementsRead n l items)
    (fun n l pairs _ => MembersRead n l pairs)
    (fun n => reads_of_notMem (by decide) (.true n) rfl)
    (fun n => reads_of_notMem (by decide) (.false n) rfl)
    (fun n => reads_of_notMem (by decide) (.null n) rfl)
    (fun n _ _ _ _ hm hi hf he => reads_of_notMem (fun hmem => (number_bytes hm hi hf he _ hmem).1 rfl)
      (.number n _ _ _ _ hm hi hf he) rfl)
    (fun _ _ _ h => reads_string h)
    (fun n w hw => reads_of_notMem (by simpa using hw.notMem.1) (.emptyArray n w hw) rfl)
    (fun _ _ _ _ ih => reads_array ih)
    (fun n w hw => reads_of_notMem (by simpa using hw.notMem.1) (.emptyObject n w hw) rfl)
    (fun _ _ _ _ ih => reads_object ih)
    (fun _ _ _ _ _ hw _ hw' ih => reads_one hw ih hw')
    (fun _ _ _ _ _ _ _ hw _ hw' _ ih ihl => reads_more hw ih hw' ihl)
    (fun _ _ _ _ _ _ _ _ _ hw hk hw₁ hw₂ _ hw' ih => reads_member hw hk hw₁ hw₂ ih hw')
    (fun _ _ _ _ _ _ _ _ _ _ _ hw hk hw₁ hw₂ _ hw' _ ih ihl =>
      reads_members hw hk hw₁ hw₂ ih hw' ihl)
    n l tree h

/-! ## Texts -/

theorem isHex_ne_zero {h : UInt8} (hh : (jsonHexval h).isSome) : h ≠ 0 := by
  grind [jsonHexval]

theorem Chars.notMem_zero {raw : List UInt8} (h : Chars raw) : (0 : UInt8) ∉ raw := by
  induction h with
  | nil => exact List.not_mem_nil
  | plain b l hb _ _ _ _ ih =>
    rw [List.mem_cons, not_or]
    refine ⟨?_, ih⟩
    rintro rfl
    exact absurd hb (by decide)
  | multi c l hc _ ih =>
    rw [List.mem_append, not_or]
    exact ⟨(notMem_backslash hc).2, ih⟩
  | escape c l hc _ ih =>
    simp only [List.mem_cons, not_or]
    refine ⟨by decide, ?_, ih⟩
    rintro rfl
    exact absurd hc (by decide)
  | unicode h₁ h₂ h₃ h₄ l hh _ ih =>
    simp only [List.mem_cons, not_or]
    refine ⟨by decide, by decide, ?_, ?_, ?_, ?_, ih⟩
    · exact (isHex_ne_zero (hh h₁ (by simp))).symm
    · exact (isHex_ne_zero (hh h₂ (by simp))).symm
    · exact (isHex_ne_zero (hh h₃ (by simp))).symm
    · exact (isHex_ne_zero (hh h₄ (by simp))).symm

/-- A text of the grammar has no zero byte. -/
theorem Value.notMem_zero {l : List UInt8} (h : Value l) : (0 : UInt8) ∉ l :=
  @Value.rec (fun l _ => (0 : UInt8) ∉ l) (fun l _ => (0 : UInt8) ∉ l) (fun l _ => (0 : UInt8) ∉ l)
    (by decide) (by decide) (by decide)
    (fun _ hl hmem => by
      obtain ⟨minus, int, frac, exp, hm, hi, hf, he⟩ := hl
      exact (number_bytes hm hi hf he 0 hmem).2 rfl)
    (fun _ hl => by simpa using hl.notMem_zero) (fun _ hw => by simpa using hw.notMem.2)
    (fun _ _ ih => by simpa using ih) (fun _ hw => by simpa using hw.notMem.2)
    (fun _ _ ih => by simpa using ih)
    (fun _ _ _ hw _ hw' ih => by simp [hw.notMem.2, ih, hw'.notMem.2])
    (fun _ _ _ _ hw _ hw' _ ih ihl => by simp [hw.notMem.2, ih, hw'.notMem.2, ihl])
    (fun _ _ _ _ _ _ hw hk hw₁ hw₂ _ hw' ih => by
      simp [hw.notMem.2, hk.notMem_zero, hw₁.notMem.2, hw₂.notMem.2, ih, hw'.notMem.2])
    (fun _ _ _ _ _ _ _ hw hk hw₁ hw₂ _ hw' _ ih ihl => by
      simp [hw.notMem.2, hk.notMem_zero, hw₁.notMem.2, hw₂.notMem.2, ih, hw'.notMem.2, ihl])
    l h

/-- The parser accepts every text of at most 129 levels; `SNEPPX_JSON_MAX_DEPTH` is 128, and the outermost
value is at depth 0. -/
theorem jsonParse_accepts {text : List UInt8} {v : JsonValue} (h : TextDenotes Unescaped 129 text v) :
    jsonParse text = some v := by
  obtain ⟨w, l, w', rfl, hw, hl, hw'⟩ := h
  obtain ⟨hval, hparse⟩ := parseValue_denotes hl
  have hfol : Follow w' := List.append_nil w' ▸ follow_ws hw' follow_nil
  have hp := hparse w w' hw hfol
  have htext : cString (w ++ (l ++ w')) = w ++ (l ++ w') :=
    cString_eq_self.2 (by simp [hw.notMem.2, hval.notMem_zero, hw'.notMem.2])
  have hskip : skipWhitespace w' = [] := by
    have := skipWhitespace_append hw' (t := []) (by intro b hb; cases hb)
    rwa [List.append_nil] at this
  simp only [jsonParse, htext, hp, Option.bind_eq_bind, Option.bind_some, hskip, List.isEmpty_nil, if_true]

/-- A text that denotes a tree of at most 129 levels is parsed to this tree exactly when no `\u` escape
of it is the zero character or part of a pair of surrogates. -/
theorem jsonParse_denotes_iff {text : List UInt8} {tree : JsonValue}
    (h : TextDenotes CharsDenote 129 text tree) :
    (jsonParse text).map JsonValue.seen = some tree ↔ simpleEscapes text = true := by
  obtain ⟨w, l, w', rfl, hw, hl, hw'⟩ := h
  obtain ⟨hsplits, v, hv, hiff⟩ := denotes_reads hl
  have hp := jsonParse_accepts ⟨w, l, w', rfl, hw, hv, hw'⟩
  rw [hp, Option.map_some, Option.some.injEq, hiff, simpleEscapes_append hw.notMem.1,
    hsplits.simple_append hw'.notMem.1]

/-- The text `["\u00e9" , -2.5]`. -/
def accentText : List UInt8 :=
  [0x5B, 0x22, 0x5C, 0x75, 0x30, 0x30, 0x65, 0x39, 0x22, 0x20, 0x2C, 0x20, 0x2D, 0x32, 0x2E, 0x35, 0x5D]

theorem jsonParse_denotes_accent :
    (jsonParse accentText).map JsonValue.seen
      = some (.array [.string [0xC3, 0xA9], .number [0x2D, 0x32, 0x2E, 0x35] false]) := by
  have hws : Ws [0x20] := by
    intro b hb
    rw [List.mem_singleton.1 hb]
    decide
  have hchars : CharsDenote [0x5C, 0x75, 0x30, 0x30, 0x65, 0x39] [0xC3, 0xA9] :=
    .unicode 0x30 0x30 0x65 0x39 (Char.ofNat 0xE9) [] [] (by decide) .nil
  have hnumber : Denotes CharsDenote 128 [0x2D, 0x32, 0x2E, 0x35]
      (.number [0x2D, 0x32, 0x2E, 0x35] false) :=
    .number 127 [0x2D] [0x32] [0x2E, 0x35] [] (.inr rfl) (.pos 0x32 [] (by decide) (by decide) (by simp))
      (.some [0x35] ⟨by simp, by simp; decide⟩) .none
  have hden : TextDenotes CharsDenote 129 accentText
      (.array [.string [0xC3, 0xA9], .number [0x2D, 0x32, 0x2E, 0x35] false]) :=
    ⟨[], accentText, [], rfl, List.forall_mem_nil _,
      .array 128 _ _ (.more 128 [] _ [0x20] _ _ _ (List.forall_mem_nil _) (.string 127 _ _ hchars) hws
        (.one 128 [0x20] _ [] _ hws hnumber (List.forall_mem_nil _))),
      List.forall_mem_nil _⟩
  exact (jsonParse_denotes_iff hden).2 (by decide +kernel)

/-- The text `"\ud83d\ude00"` denotes one character of four bytes; the parser returns six. -/
theorem not_denotes_pair :
    ¬∀ text tree, TextDenotes CharsDenote 129 text tree →
      (jsonParse text).map JsonValue.seen = some tree := by
  intro h
  have hchars : CharsDenote [0x5C, 0x75, 0x64, 0x38, 0x33, 0x64, 0x5C, 0x75, 0x64, 0x65, 0x30, 0x30]
      [0xF0, 0x9F, 0x98, 0x80] :=
    .pair 0x64 0x38 0x33 0x64 0x64 0x65 0x30 0x30 0xD83D 0xDE00 (Char.ofNat 0x1F600) [] [] (by decide)
      (by decide) (by decide) (by decide) (by decide) (by decide) (by decide) .nil
  have hden : TextDenotes CharsDenote 129
      [0x22, 0x5C, 0x75, 0x64, 0x38, 0x33, 0x64, 0x5C, 0x75, 0x64, 0x65, 0x30, 0x30, 0x22]
      (.string [0xF0, 0x9F, 0x98, 0x80]) :=
    ⟨[], _, [], (List.append_nil _).symm, List.forall_mem_nil _, .string 128 _ _ hchars,
      List.forall_mem_nil _⟩
  have hp : (jsonParse
      [0x22, 0x5C, 0x75, 0x64, 0x38, 0x33, 0x64, 0x5C, 0x75, 0x64, 0x65, 0x30, 0x30, 0x22]).map
      JsonValue.seen = some (.string [0xED, 0xA0, 0xBD, 0xED, 0xB8, 0x80]) := rfl
  have hne := (h _ _ hden).symm.trans hp
  rw [Option.some.injEq, JsonValue.string.injEq] at hne
  exact absurd hne (by decide)

end SneppxAlg.Json
