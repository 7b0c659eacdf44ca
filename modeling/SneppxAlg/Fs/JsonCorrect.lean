import SneppxAlg.Fs.JsonLexemes

/-!
# What the JSON parser accepts

An accepted text belongs to the grammar exactly when it is a sequence of lexemes of the grammar and not
a lone opening bracket. A text of the grammar is lexed along its derivation, and a derivation is rebuilt
from a run of the parser on a lexed text. The parser takes the end of the text for the end of a
container only right behind the opening bracket, and no container around it goes on from there.
-/

namespace SneppxAlg.Json

theorem expect_eq_some {c : UInt8} {t r : List UInt8} (h : expect c t = some r) : t = c :: r := by
  cases t with
  | nil => cases h
  | cons b t =>
    rw [expect] at h
    split at h
    · next hb => rw [hb, Option.some.inj h]
    · cases h

theorem length_skipWhitespace_le (t : List UInt8) : (skipWhitespace t).length ≤ t.length :=
  length_dropWhile_le isspace t

theorem Ws.append {w w' : List UInt8} (hw : Ws w) (hw' : Ws w') : Ws (w ++ w') :=
  List.forall_mem_append.mpr ⟨hw, hw'⟩

theorem Elements.ws_append {l w : List UInt8} (h : Elements l) (hw : Ws w) : Elements (w ++ l) := by
  cases h with
  | one w₁ v w' h₁ hv h' =>
    rw [← List.append_assoc]
    exact .one _ v w' (hw.append h₁) hv h'
  | more w₁ v w' l h₁ hv h' hl =>
    rw [← List.append_assoc]
    exact .more _ v w' l (hw.append h₁) hv h' hl

theorem Members.ws_append {l w : List UInt8} (h : Members l) (hw : Ws w) : Members (w ++ l) := by
  cases h with
  | one w₀ k w₁ w₂ v w' h₀ hk h₁ h₂ hv h' =>
    rw [← List.append_assoc]
    exact .one _ k w₁ w₂ v w' (hw.append h₀) hk h₁ h₂ hv h'
  | more w₀ k w₁ w₂ v w' l h₀ hk h₁ h₂ hv h' hl =>
    rw [← List.append_assoc]
    exact .more _ k w₁ w₂ v w' l (hw.append h₀) hk h₁ h₂ hv h' hl

/-! ## Where values begin and what follows them -/

theorem digit_head {d : UInt8} (h : isdigit d = true) :
    isspace d = false ∧ d ≠ 0x5D ∧ d ≠ 0x7D := by
  grind [isdigit, isspace]

/-- How a value starts. -/
theorem value_head {l : List UInt8} (h : Value l) :
    ∃ c l', l = c :: l' ∧ isspace c = false ∧ c ≠ 0x5D ∧ c ≠ 0x7D := by
  cases h with
  | true | false | null => exact ⟨_, _, rfl, by decide, by decide, by decide⟩
  | number l hl =>
    obtain ⟨c, u, rfl, rfl | hc⟩ := hl.head
    · exact ⟨_, u, rfl, by decide, by decide, by decide⟩
    · exact ⟨c, u, rfl, digit_head hc⟩
  | string l _ | emptyArray w _ | array l _ | emptyObject w _ | object l _ =>
    exact ⟨_, _, rfl, by decide, by decide, by decide⟩

theorem noSpace_cons {c : UInt8} {t : List UInt8} (h : isspace c = false) : NoSpace (c :: t) := by
  intro b hb
  obtain rfl : c = b := by simpa using hb
  exact h

theorem value_noSpace {l : List UInt8} (h : Value l) (t : List UInt8) : NoSpace (l ++ t) := by
  obtain ⟨c, l', rfl, hc, -⟩ := value_head h
  exact noSpace_cons hc

theorem follow_ws {w t : List UInt8} (hw : Ws w) (ht : Follow t) : Follow (w ++ t) := by
  intro b hb
  cases w with
  | nil => exact ht b hb
  | cons c w =>
    obtain rfl : c = b := by simpa using hb
    exact .inl (hw c List.mem_cons_self)

theorem follow_nil : Follow [] := by
  intro b hb
  cases hb

theorem follow_comma (t : List UInt8) : Follow (0x2C :: t) := by
  intro b hb
  obtain rfl : 0x2C = b := by simpa using hb
  exact .inr (.inl rfl)

theorem follow_bracket (t : List UInt8) : Follow (0x5D :: t) := by
  intro b hb
  obtain rfl : 0x5D = b := by simpa using hb
  exact .inr (.inr (.inl rfl))

theorem follow_brace (t : List UInt8) : Follow (0x7D :: t) := by
  intro b hb
  obtain rfl : 0x7D = b := by simpa using hb
  exact .inr (.inr (.inr rfl))

/-- Elements start with white space and a value. -/
theorem elements_start {l : List UInt8} (h : Elements l) (t : List UInt8) :
    ∃ w, Ws w ∧ ∃ c u, l ++ t = w ++ c :: u ∧ skipWhitespace (l ++ t) = c :: u ∧ c ≠ 0x5D := by
  cases h with
  | one w v w' hw hv _ | more w v w' l hw hv _ _ =>
    obtain ⟨c, v', rfl, hsp, hne, -⟩ := value_head hv
    simp only [List.append_assoc, List.cons_append]
    exact ⟨w, hw, c, _, rfl, skipWhitespace_append hw (noSpace_cons hsp), hne⟩

/-- Members start with white space and a quote. -/
theorem members_start {l : List UInt8} (h : Members l) (t : List UInt8) :
    ∃ w, Ws w ∧ ∃ u, l ++ t = w ++ 0x22 :: u ∧ skipWhitespace (l ++ t) = 0x22 :: u := by
  cases h with
  | one w k w₁ w₂ v w' hw | more w k w₁ w₂ v w' l hw =>
    rw [List.append_assoc, List.cons_append]
    exact ⟨w, hw, _, rfl, skipWhitespace_append hw (noSpace_cons (by decide))⟩

/-! ## Texts of the grammar are lexed -/

/-- A byte that is no lexeme of its own kind. -/
def Single (b : UInt8) : Prop := b ∉ [0x0B, 0x0C, 0x22, (0x2D : UInt8)] ∧ isdigit b = false

theorem single_of_isWs {b : UInt8} (h : isWs b = true) : Single b := by
  grind [Single, isWs, isdigit]

theorem Lexed.append {l t : List UInt8} (hl : ∀ b ∈ l, Single b) (ht : Lexed t) : Lexed (l ++ t) := by
  induction l with
  | nil => exact ht
  | cons b l ih =>
    have hb := hl b (.head _)
    exact .byte b _ hb.1 hb.2 (ih fun c hc => hl c (.tail _ hc))

theorem Ws.lexed {w t : List UInt8} (hw : Ws w) (ht : Lexed t) : Lexed (w ++ t) :=
  ht.append fun b hb => single_of_isWs (hw b hb)

theorem Value.lexed {l : List UInt8} (h : Value l) : ∀ t, Follow t → Lexed t → Lexed (l ++ t) :=
  @Value.rec (fun l _ => ∀ t, Follow t → Lexed t → Lexed (l ++ t))
    (fun l _ => ∀ t, Follow t → Lexed t → Lexed (l ++ t)) (fun l _ => ∀ t, Follow t → Lexed t → Lexed (l ++ t))
    (fun _ _ ht => ht.append (by simp [Single]; decide)) (fun _ _ ht => ht.append (by simp [Single]; decide))
    (fun _ _ ht => ht.append (by simp [Single]; decide))
    (fun _ hl t hf ht => .number _ t hl hf ht)
    (fun _ hl t _ ht => by
      rw [List.cons_append, List.append_assoc]
      exact .string _ t hl ht)
    (fun _ hw t _ ht => by
      rw [List.cons_append, List.append_assoc]
      exact .byte _ _ (by decide) (by decide) (hw.lexed (.byte _ _ (by decide) (by decide) ht)))
    (fun _ _ ih t _ ht => by
      rw [List.cons_append, List.append_assoc]
      exact .byte _ _ (by decide) (by decide) (ih _ (follow_bracket t) (.byte _ _ (by decide) (by decide) ht)))
    (fun _ hw t _ ht => by
      rw [List.cons_append, List.append_assoc]
      exact .byte _ _ (by decide) (by decide) (hw.lexed (.byte _ _ (by decide) (by decide) ht)))
    (fun _ _ ih t _ ht => by
      rw [List.cons_append, List.append_assoc]
      exact .byte _ _ (by decide) (by decide) (ih _ (follow_brace t) (.byte _ _ (by decide) (by decide) ht)))
    (fun _ _ _ hw _ hw' ih t hf ht => by
      simp only [List.append_assoc]
      exact hw.lexed (ih _ (follow_ws hw' hf) (hw'.lexed ht)))
    (fun _ _ _ _ hw _ hw' _ ih ihl t hf ht => by
      simp only [List.append_assoc, List.cons_append]
      exact hw.lexed (ih _ (follow_ws hw' (follow_comma _))
        (hw'.lexed (.byte _ _ (by decide) (by decide) (ihl t hf ht)))))
    (fun _ _ _ _ _ _ hw hk hw₁ hw₂ _ hw' ih t hf ht => by
      simp only [List.append_assoc, List.cons_append]
      exact hw.lexed (.string _ _ hk (hw₁.lexed (.byte _ _ (by decide) (by decide)
        (hw₂.lexed (ih _ (follow_ws hw' hf) (hw'.lexed ht)))))))
    (fun _ _ _ _ _ _ _ hw hk hw₁ hw₂ _ hw' _ ih ihl t hf ht => by
      simp only [List.append_assoc, List.cons_append]
      exact hw.lexed (.string _ _ hk (hw₁.lexed (.byte _ _ (by decide) (by decide)
        (hw₂.lexed (ih _ (follow_ws hw' (follow_comma _))
          (hw'.lexed (.byte _ _ (by decide) (by decide) (ihl t hf ht)))))))))
    l h

theorem Value.not_lone {l w w' : List UInt8} {b : UInt8} (h : Value l) (heq : l ++ w = b :: w')
    (hb : b = 0x5B ∨ b = 0x7B) : ¬ Ws w' := by
  intro hw'
  have hclose : ∀ c ∈ [0x5D, (0x7D : UInt8)], c ∉ w' := by
    intro c hc hmem
    have := hw' c hmem
    simp only [List.mem_cons, List.not_mem_nil, or_false] at hc
    rcases hc with rfl | rfl <;> exact absurd this (by decide)
  cases h with
  | true | false | null | string => rcases hb with rfl | rfl <;> simp at heq
  | number l hl =>
    obtain ⟨c, u, rfl, hc⟩ := hl.head
    obtain rfl : c = b := (List.cons.inj heq).1
    rcases hb with rfl | rfl <;> exact absurd hc (by decide)
  | emptyArray v _ | array v _ => exact hclose 0x5D (by simp) ((List.cons.inj heq).2 ▸ by simp)
  | emptyObject v _ | object v _ => exact hclose 0x7D (by simp) ((List.cons.inj heq).2 ▸ by simp)

/-! ## The lexemes of a lexed text -/

theorem Lexed.skip {t : List UInt8} (h : Lexed t) : Ws (t.takeWhile isspace) ∧ Lexed (skipWhitespace t) := by
  have hstop : ∀ {c : UInt8} {u : List UInt8}, isspace c = false → Lexed (c :: u) →
      Ws ((c :: u).takeWhile isspace) ∧ Lexed (skipWhitespace (c :: u)) := by
    intro c u hc hu
    rw [skipWhitespace, List.takeWhile_cons_of_neg (by simp [hc]), List.dropWhile_cons_of_neg (by simp [hc])]
    exact ⟨List.forall_mem_nil _, hu⟩
  induction h with
  | nil => exact ⟨List.forall_mem_nil _, .nil⟩
  | byte b t hb hd ht ih =>
    cases hs : isspace b with
    | false => exact hstop hs (.byte b t hb hd ht)
    | true =>
      simp only [List.mem_cons, not_or] at hb
      rw [skipWhitespace, List.takeWhile_cons_of_pos hs, List.dropWhile_cons_of_pos hs]
      exact ⟨List.forall_mem_cons.mpr ⟨isWs_of_isspace hs hb.1 hb.2.1, ih.1⟩, ih.2⟩
  | string raw t hraw ht _ => exact hstop (by decide) (.string raw t hraw ht)
  | number l t hl hf ht _ =>
    have hx := Lexed.number l t hl hf ht
    obtain ⟨c, u, rfl, rfl | hc⟩ := hl.head
    · exact hstop (by decide) hx
    · exact hstop (digit_head hc).1 hx

theorem Lexed.of_quote {t : List UInt8} (h : Lexed (0x22 :: t)) :
    ∃ raw t', t = raw ++ 0x22 :: t' ∧ Chars raw ∧ Lexed t' := by
  generalize hs : 0x22 :: t = s at h
  cases h with
  | nil => cases hs
  | byte b u hb _ _ =>
    obtain ⟨rfl, -⟩ := List.cons.inj hs
    simp at hb
  | string raw u hraw hu => exact ⟨raw, u, (List.cons.inj hs).2, hraw, hu⟩
  | number l u hl _ _ =>
    obtain ⟨c, v, rfl, hc⟩ := hl.head
    obtain ⟨rfl, -⟩ := List.cons.inj hs
    exact absurd hc (by decide)

theorem Lexed.of_number {c : UInt8} {t : List UInt8} (h : Lexed (c :: t)) (hc : c = 0x2D ∨ isdigit c = true) :
    ∃ l t', c :: t = l ++ t' ∧ IsNumber l ∧ Follow t' ∧ Lexed t' := by
  generalize hs : c :: t = s at h
  cases h with
  | nil => cases hs
  | byte b u hb hd _ =>
    obtain ⟨rfl, -⟩ := List.cons.inj hs
    rcases hc with rfl | hc
    · simp at hb
    · rw [hc] at hd
      cases hd
  | string raw u _ _ =>
    obtain ⟨rfl, -⟩ := List.cons.inj hs
    exact absurd hc (by decide)
  | number l u hl hf hu => exact ⟨l, u, rfl, hl, hf, hu⟩

theorem Lexed.of_append {l t : List UInt8} (hl : ∀ b ∈ l, Single b) (h : Lexed (l ++ t)) : Lexed t := by
  induction l with
  | nil => exact h
  | cons b l ih =>
    refine ih (fun c hc => hl c (.tail _ hc)) ?_
    have hb := hl b (.head _)
    generalize hs : b :: l ++ t = s at h
    cases h with
    | nil => cases hs
    | byte c u _ _ hu =>
      obtain ⟨-, rfl⟩ : b = c ∧ l ++ t = u := List.cons.inj hs
      exact hu
    | string raw u _ _ =>
      obtain ⟨rfl, -⟩ := List.cons.inj hs
      exact absurd hb (by simp [Single])
    | number m u hm _ _ =>
      obtain ⟨c, v, rfl, hc⟩ := hm.head
      obtain ⟨rfl, -⟩ := List.cons.inj hs
      rcases hc with rfl | hc
      · exact absurd hb (by simp [Single])
      · rw [hb.2] at hc
        cases hc

theorem Lexed.tail {b : UInt8} {t : List UInt8} (h : Lexed (b :: t)) (hb : Single b) : Lexed t :=
  h.of_append (l := [b]) (by simpa using hb)

/-! ## Soundness -/

section Sound

variable {value : List UInt8 → Option (Parsed JsonValue)}

/-- On a lexed text a value of the grammar is consumed, unless all of it is a lone bracket. -/
def Sound (value : List UInt8 → Option (Parsed JsonValue)) : Prop :=
  ∀ t v r, value t = some (v, r) → Lexed t →
    (∃ w l, Ws w ∧ Value l ∧ t = w ++ (l ++ r) ∧ Lexed r) ∨ LoneBracket t ∧ r = []

theorem arrayLoop_sound (hv : Sound value) :
    ∀ k t items r, arrayLoop value k t = some (items, r) → Lexed t →
      ∃ l, Elements l ∧ t = l ++ 0x5D :: r ∧ Lexed r := by
  intro k
  induction k with
  | zero => intro t items r h; cases h
  | succ k ih =>
    intro t items r h ht
    simp only [arrayLoop, Option.bind_eq_bind, Option.bind_eq_some_iff, Prod.exists] at h
    obtain ⟨v, t₁, hval, h⟩ := h
    have hsp := takeWhile_skipWhitespace t₁
    cases hs : skipWhitespace t₁ with
    | nil => simp [hs] at h
    | cons c t₂ =>
      -- behind a lone bracket nothing is left
      obtain ⟨w, l, hw, hl, rfl, ht₁⟩ | ⟨-, rfl⟩ := hv _ _ _ hval ht
      swap
      · cases hs
      obtain ⟨hw', ht₂⟩ := ht₁.skip
      rw [hs] at hsp ht₂
      simp only [hs] at h
      by_cases hc : c = 0x5D
      · subst hc
        obtain ⟨-, rfl⟩ : _ ∧ t₂ = r := by simpa using h
        refine ⟨_, .one w l _ hw hl hw', ?_, ht₂.tail (by simp [Single]; decide)⟩
        rw [List.append_assoc, List.append_assoc, ← hsp]
      · by_cases hcomma : c = 0x2C
        · subst hcomma
          simp only [hc, if_false, if_true, Option.bind_eq_some_iff, Prod.exists, Option.some.injEq,
            Prod.mk.injEq] at h
          obtain ⟨items', r', hloop, -, rfl⟩ := h
          obtain ⟨l', hl', rfl, hr⟩ := ih _ _ _ hloop (ht₂.tail (by simp [Single]; decide))
          refine ⟨_, .more w l _ l' hw hl hw' hl', ?_, hr⟩
          rw [List.append_assoc, List.append_assoc, List.append_assoc, List.cons_append, ← hsp]
        · simp [hc, hcomma] at h

theorem objectLoop_sound (hv : Sound value) :
    ∀ k t pairs r, objectLoop value k t = some (pairs, r) → Lexed t →
      ∃ l, Members l ∧ t = l ++ 0x7D :: r ∧ Lexed r := by
  intro k
  induction k with
  | zero => intro t pairs r h; cases h
  | succ k ih =>
    intro t pairs r h ht
    simp only [objectLoop, Option.bind_eq_bind, Option.bind_eq_some_iff, Prod.exists] at h
    obtain ⟨t₁, hq, raw, t₂, hraw, t₃, hcolon, v, t₄, hval, h⟩ := h
    have h₀ := takeWhile_skipWhitespace t
    obtain ⟨hw, hx⟩ := ht.skip
    rw [expect_eq_some hq] at h₀ hx
    obtain ⟨raw', t₂', rfl, hk, ht₂⟩ := hx.of_quote
    rw [scanString_complete hk] at hraw
    obtain ⟨rfl, rfl⟩ := Prod.mk.inj (Option.some.inj hraw)
    have h₂ := takeWhile_skipWhitespace t₂'
    obtain ⟨hw₁, hx⟩ := ht₂.skip
    rw [expect_eq_some hcolon] at h₂ hx
    have h₄ := takeWhile_skipWhitespace t₄
    cases hs : skipWhitespace t₄ with
    | nil => simp [hs] at h
    | cons c t₅ =>
      obtain ⟨w₂, l, hw₂, hl, rfl, ht₄⟩ | ⟨-, rfl⟩ := hv _ _ _ hval (hx.tail (by simp [Single]; decide))
      swap
      · cases hs
      obtain ⟨hw', ht₅⟩ := ht₄.skip
      rw [hs] at h₄ ht₅
      simp only [hs] at h
      by_cases hc : c = 0x7D
      · subst hc
        obtain ⟨-, rfl⟩ : _ ∧ t₅ = r := by simpa using h
        refine ⟨_, .one _ raw' _ w₂ l _ hw hk hw₁ hw₂ hl hw', ?_, ht₅.tail (by simp [Single]; decide)⟩
        refine h₀.trans ?_
        simp only [List.append_assoc, List.cons_append, ← h₄, ← h₂]
      · by_cases hcomma : c = 0x2C
        · subst hcomma
          simp only [hc, if_false, if_true, Option.bind_eq_some_iff, Prod.exists, Option.some.injEq,
            Prod.mk.injEq] at h
          obtain ⟨pairs', r', hloop, -, rfl⟩ := h
          obtain ⟨l', hl', rfl, hr⟩ := ih _ _ _ hloop (ht₅.tail (by simp [Single]; decide))
          refine ⟨_, .more _ raw' _ w₂ l _ l' hw hk hw₁ hw₂ hl hw' hl', ?_, hr⟩
          refine h₀.trans ?_
          simp only [List.append_assoc, List.cons_append, ← h₄, ← h₂]
        · simp [hc, hcomma] at h

theorem parseArray_sound (hv : Sound value) {t r : List UInt8} {v : JsonValue}
    (h : parseArray value t = some (v, r)) (ht : Lexed t) :
    (∃ l, Value (0x5B :: l) ∧ t = l ++ r ∧ Lexed r) ∨ Ws t ∧ r = [] := by
  have hsp := takeWhile_skipWhitespace t
  obtain ⟨hw, hx⟩ := ht.skip
  unfold parseArray at h
  cases hs : skipWhitespace t with
  | nil =>
    simp only [hs, Option.some.injEq, Prod.mk.injEq] at h
    rw [hs, List.append_nil] at hsp
    exact .inr ⟨hsp ▸ hw, h.2.symm⟩
  | cons c u =>
    rw [hs] at hsp hx
    simp only [hs] at h
    by_cases hc : c = 0x5D
    · subst hc
      obtain ⟨-, rfl⟩ : _ ∧ u = r := by simpa using h
      refine .inl ⟨_, .emptyArray _ hw, ?_, hx.tail (by simp [Single]; decide)⟩
      rw [List.append_assoc]
      exact hsp
    · simp only [hc, if_false, Option.map_eq_some_iff, Prod.exists, Prod.mk.injEq] at h
      obtain ⟨items, r', hloop, -, rfl⟩ := h
      obtain ⟨l, hl, hcu, hr⟩ := arrayLoop_sound hv _ _ _ _ hloop hx
      refine .inl ⟨_, .array _ (hl.ws_append hw), ?_, hr⟩
      rw [List.append_assoc, List.append_assoc]
      exact hsp.trans (congrArg _ hcu)

theorem parseObject_sound (hv : Sound value) {t r : List UInt8} {v : JsonValue}
    (h : parseObject value t = some (v, r)) (ht : Lexed t) :
    (∃ l, Value (0x7B :: l) ∧ t = l ++ r ∧ Lexed r) ∨ Ws t ∧ r = [] := by
  have hsp := takeWhile_skipWhitespace t
  obtain ⟨hw, hx⟩ := ht.skip
  unfold parseObject at h
  cases hs : skipWhitespace t with
  | nil =>
    simp only [hs, Option.some.injEq, Prod.mk.injEq] at h
    rw [hs, List.append_nil] at hsp
    exact .inr ⟨hsp ▸ hw, h.2.symm⟩
  | cons c u =>
    rw [hs] at hsp hx
    simp only [hs] at h
    by_cases hc : c = 0x7D
    · subst hc
      obtain ⟨-, rfl⟩ : _ ∧ u = r := by simpa using h
      refine .inl ⟨_, .emptyObject _ hw, ?_, hx.tail (by simp [Single]; decide)⟩
      rw [List.append_assoc]
      exact hsp
    · simp only [hc, if_false, Option.map_eq_some_iff, Prod.exists, Prod.mk.injEq] at h
      obtain ⟨pairs, r', hloop, -, rfl⟩ := h
      obtain ⟨l, hl, hcu, hr⟩ := objectLoop_sound hv _ _ _ _ hloop hx
      refine .inl ⟨_, .object _ (hl.ws_append hw), ?_, hr⟩
      rw [List.append_assoc, List.append_assoc]
      exact hsp.trans (congrArg _ hcu)

theorem parseLiteral_sound {t r : List UInt8} {v : JsonValue} (h : parseLiteral t = some (v, r)) (ht : Lexed t) :
    ∃ l, Value l ∧ t = l ++ r ∧ Lexed r := by
  have hword : ∀ {n : ℕ} (l : List UInt8), (∀ b ∈ l, Single b) → t.take n = l → Lexed (t.drop n) := by
    intro n l hb hl
    refine Lexed.of_append hb ?_
    rw [← hl, List.take_append_drop]
    exact ht
  unfold parseLiteral at h
  split at h
  · next hl =>
    obtain ⟨-, rfl⟩ : _ ∧ t.drop 4 = r := by simpa using h
    exact ⟨_, .true, by rw [← hl, List.take_append_drop], hword [0x74, 0x72, 0x75, 0x65] (by simp [Single]; decide) hl⟩
  · split at h
    · next hl =>
      obtain ⟨-, rfl⟩ : _ ∧ t.drop 5 = r := by simpa using h
      exact ⟨_, .false, by rw [← hl, List.take_append_drop], hword [0x66, 0x61, 0x6C, 0x73, 0x65] (by simp [Single]; decide) hl⟩
    · split at h
      · next hl =>
        obtain ⟨-, rfl⟩ : _ ∧ t.drop 4 = r := by simpa using h
        exact ⟨_, .null, by rw [← hl, List.take_append_drop], hword [0x6E, 0x75, 0x6C, 0x6C] (by simp [Single]; decide) hl⟩
      · cases h

theorem parseValue_sound : ∀ n, Sound (parseValue n) := by
  intro n
  induction n with
  | zero => intro t v r h; cases h
  | succ n ih =>
    intro t v r h ht
    have hsp := takeWhile_skipWhitespace t
    obtain ⟨hw, hx⟩ := ht.skip
    rw [parseValue] at h
    cases hs : skipWhitespace t with
    | nil => simp [hs] at h
    | cons c u =>
      rw [hs] at hsp hx
      simp only [hs] at h
      -- it remains to find the value at the start of `c :: u`
      suffices (∃ l, Value l ∧ c :: u = l ++ r ∧ Lexed r) ∨ (c = 0x5B ∨ c = 0x7B) ∧ Ws u ∧ r = [] by
        obtain ⟨l, hl, hcu, hr⟩ | ⟨hc, hu, hr⟩ := this
        · exact .inl ⟨_, l, hw, hl, hsp.trans (congrArg _ hcu), hr⟩
        · exact .inr ⟨⟨_, c, u, hsp, hw, hc, hu⟩, hr⟩
      split at h
      · next hc =>
        subst hc
        obtain ⟨l, hl, rfl, hr⟩ | hlone := parseObject_sound ih h (hx.tail (by simp [Single]; decide))
        · exact .inl ⟨_, hl, rfl, hr⟩
        · exact .inr ⟨.inr rfl, hlone⟩
      split at h
      · next hc =>
        subst hc
        obtain ⟨l, hl, rfl, hr⟩ | hlone := parseArray_sound ih h (hx.tail (by simp [Single]; decide))
        · exact .inl ⟨_, hl, rfl, hr⟩
        · exact .inr ⟨.inl rfl, hlone⟩
      split at h
      · next hc =>
        subst hc
        obtain ⟨raw, t', rfl, hraw, ht'⟩ := hx.of_quote
        rw [parseString, scanString_complete hraw] at h
        obtain ⟨-, rfl⟩ := Prod.mk.inj (Option.some.inj h)
        exact .inl ⟨_, .string raw hraw, by simp, ht'⟩
      split at h
      · next hc =>
        obtain ⟨l, t', hcu, hl, hf, ht'⟩ := hx.of_number (by simpa [isdigit] using hc)
        rw [hcu] at h ⊢
        obtain rfl := parseNumber_complete hl hf h
        exact .inl ⟨l, .number l hl, rfl, ht'⟩
      split at h
      · exact .inl (parseLiteral_sound h hx)
      · cases h

end Sound

/-! ## Texts -/

/-- **An accepted text belongs to the grammar exactly if** its strings and numbers are those of the grammar, there is
no vertical tab or form feed outside of them, and it is no lone bracket. -/
theorem accepts_only_grammar_iff {json : List UInt8} (h : (jsonParse json).isSome) :
    JsonText (cString json) ↔ Lexed (cString json) ∧ ¬ LoneBracket (cString json) := by
  obtain ⟨v, h⟩ := Option.isSome_iff_exists.mp h
  simp only [jsonParse, Option.bind_eq_bind, Option.bind_eq_some_iff, Prod.exists] at h
  obtain ⟨v', r, hval, h⟩ := h
  constructor
  · rintro ⟨w, l, w', htext, hw, hl, hw'⟩
    have hlex := hl.lexed _ (List.append_nil w' ▸ follow_ws hw' follow_nil) (List.append_nil w' ▸ hw'.lexed .nil)
    refine ⟨htext ▸ hw.lexed hlex, ?_⟩
    rintro ⟨v, b, v', hlone, hv, hb, hv'⟩
    have hsplit := congrArg skipWhitespace (htext.symm.trans hlone)
    rw [skipWhitespace_append hw (value_noSpace hl _), skipWhitespace_append hv (noSpace_cons (by
      rcases hb with rfl | rfl <;> decide))] at hsplit
    exact hl.not_lone hsplit hb hv'
  · rintro ⟨hlex, hlone⟩
    obtain ⟨w, l, hw, hl, htext, hr⟩ | ⟨h', -⟩ := parseValue_sound 129 _ _ _ hval hlex
    swap
    · exact absurd h' hlone
    split at h
    · next hempty =>
      have hsp := takeWhile_skipWhitespace r
      rw [List.isEmpty_iff.mp hempty, List.append_nil] at hsp
      exact ⟨w, l, r, htext, hw, hl, hsp ▸ hr.skip.1⟩
    · cases h

/-- The text `["\u00e9",-1]`. -/
def accentAndNumber : List UInt8 :=
  [0x5B, 0x22, 0x5C, 0x75, 0x30, 0x30, 0x65, 0x39, 0x22, 0x2C, 0x2D, 0x31, 0x5D]

/-- The text `["\u00e9",-1]` is accepted and belongs to the grammar. -/
theorem accepts_only_grammar_iff_accentAndNumber :
    (jsonParse accentAndNumber).isSome ∧ JsonText (cString accentAndNumber) := by
  have hp : (jsonParse accentAndNumber).isSome := by decide +kernel
  have hc : cString accentAndNumber = accentAndNumber := by decide +kernel
  have hiff := accepts_only_grammar_iff hp
  rw [hc] at hiff ⊢
  refine ⟨hp, hiff.mpr ⟨?_, ?_⟩⟩
  · refine .byte _ _ (by decide) (by decide) ?_
    refine .string [0x5C, 0x75, 0x30, 0x30, 0x65, 0x39] _ (.unicode _ _ _ _ _ (by decide +kernel) .nil) ?_
    refine .byte _ _ (by decide) (by decide) (.number [0x2D, 0x31] _ ?_ (follow_bracket _) ?_)
    · exact ⟨[0x2D], [0x31], [], [], .inr rfl, .pos _ _ (by decide) (by decide) (List.forall_mem_nil _), .none, .none⟩
    · exact .byte _ _ (by decide) (by decide) .nil
  · rintro ⟨w, b, w', hw, hws, hb, hws'⟩
    cases w with
    | nil =>
      obtain ⟨-, rfl⟩ := List.cons.inj hw
      exact absurd (hws' 0x22 (by simp)) (by decide)
    | cons c w =>
      obtain ⟨rfl, -⟩ := List.cons.inj hw
      exact absurd (hws _ (.head _)) (by decide)

/-- A single opening brace is accepted. -/
theorem accepts_open_brace : ¬ ∀ json : List UInt8, (jsonParse json).isSome → JsonText (cString json) := by
  intro h
  have hp : jsonParse [0x7B] = some (.object []) := rfl
  obtain ⟨w, l, w', htext, hw, hl, hw'⟩ := h [0x7B] (by rw [hp]; rfl)
  have hsplit := congrArg skipWhitespace htext
  rw [skipWhitespace_append hw (value_noSpace hl _)] at hsplit
  exact hl.not_lone hsplit.symm (.inr rfl) (List.forall_mem_nil _)

end SneppxAlg.Json
