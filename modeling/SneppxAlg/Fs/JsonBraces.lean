import SneppxAlg.Fs.JsonGrammar

/-!
# The braces of a text

In a text of the grammar as many braces are opened as closed, if those in strings are not counted
(`JsonText.braces_eq_zero`). The count is one pass over the bytes that knows whether it is in a string and
whether the last byte was a backslash there; values, elements and members leave it as it was.
-/

namespace SneppxAlg.Json

/-- Where a pass over a text stands: outside of strings, in a string, or behind a backslash. -/
inductive Place
  | outside
  | inside
  | escaped
deriving DecidableEq

def Place.next : Place → UInt8 → Place
  | .outside, b => if b = 0x22 then .inside else .outside
  | .inside, b => if b = 0x22 then .outside else if b = 0x5C then .escaped else .inside
  | .escaped, _ => .inside

def Place.brace : Place → UInt8 → ℤ
  | .outside, b => if b = 0x7B then 1 else if b = 0x7D then -1 else 0
  | .inside, _ => 0
  | .escaped, _ => 0

/-- The braces that are opened, less those that are closed. -/
def braces : Place → List UInt8 → ℤ
  | _, [] => 0
  | p, b :: l => p.brace b + braces (p.next b) l

/-- Where the pass stands at the end. -/
def placeAfter : Place → List UInt8 → Place
  | p, [] => p
  | p, b :: l => placeAfter (p.next b) l

theorem braces_append (p : Place) (l m : List UInt8) :
    braces p (l ++ m) = braces p l + braces (placeAfter p l) m := by
  induction l generalizing p with
  | nil => simp [braces, placeAfter]
  | cons b l ih => rw [List.cons_append, braces, ih, braces, placeAfter, add_assoc]

theorem placeAfter_append (p : Place) (l m : List UInt8) :
    placeAfter p (l ++ m) = placeAfter (placeAfter p l) m := by
  induction l generalizing p with
  | nil => rfl
  | cons b l ih => exact ih (p.next b)

/-- A text that a pass goes over without a trace. -/
structure Neutral (p : Place) (l : List UInt8) : Prop where
  place : placeAfter p l = p
  braces : braces p l = 0

theorem Neutral.nil (p : Place) : Neutral p [] := ⟨rfl, rfl⟩

theorem Neutral.append {p : Place} {l m : List UInt8} (hl : Neutral p l) (hm : Neutral p m) :
    Neutral p (l ++ m) :=
  ⟨by rw [placeAfter_append, hl.place, hm.place],
    by rw [braces_append, hl.place, hl.braces, hm.braces, add_zero]⟩

theorem neutral_of_forall {l : List UInt8} (h : ∀ b ∈ l, b ≠ 0x22 ∧ b ≠ 0x7B ∧ b ≠ 0x7D) :
    Neutral .outside l := by
  induction l with
  | nil => exact Neutral.nil _
  | cons b l ih =>
    obtain ⟨hquote, hopen, hclose⟩ := h b List.mem_cons_self
    have hrest := ih fun b' hb' => h b' (List.mem_cons_of_mem b hb')
    refine ⟨?_, ?_⟩
    · rw [placeAfter, Place.next, if_neg hquote, hrest.place]
    · rw [braces, Place.brace, if_neg hopen, if_neg hclose, Place.next, if_neg hquote, hrest.braces, add_zero]

theorem neutral_inside_of_forall {l : List UInt8} (h : ∀ b ∈ l, b ≠ 0x22 ∧ b ≠ 0x5C) :
    Neutral .inside l := by
  induction l with
  | nil => exact Neutral.nil _
  | cons b l ih =>
    obtain ⟨hquote, hslash⟩ := h b List.mem_cons_self
    have hrest := ih fun b' hb' => h b' (List.mem_cons_of_mem b hb')
    refine ⟨?_, ?_⟩
    · rw [placeAfter, Place.next, if_neg hquote, if_neg hslash, hrest.place]
    · rw [braces, Place.brace, Place.next, if_neg hquote, if_neg hslash, hrest.braces, add_zero]

/-! ## The productions -/

theorem Ws.neutral {w : List UInt8} (h : Ws w) : Neutral .outside w :=
  neutral_of_forall fun b hb => by
    have hws := h b hb
    simp only [isWs, Bool.or_eq_true, beq_iff_eq] at hws
    rcases hws with ((rfl | rfl) | rfl) | rfl <;> decide

theorem digit_plain {b : UInt8} (h : isdigit b = true) : b ≠ 0x22 ∧ b ≠ 0x7B ∧ b ≠ 0x7D := by
  simp only [isdigit, Bool.and_eq_true, decide_eq_true_eq] at h
  refine ⟨?_, ?_, ?_⟩ <;> rintro rfl <;> revert h <;> decide

theorem IsNumber.neutral {l : List UInt8} (h : IsNumber l) : Neutral .outside l := by
  obtain ⟨minus, int, frac, exp, hminus, hint, hfrac, hexp⟩ := h
  have hdigits : ∀ {ds : List UInt8}, (∀ b ∈ ds, isdigit b = true) → Neutral .outside ds := fun hds =>
    neutral_of_forall fun b hb => digit_plain (hds b hb)
  refine Neutral.append ?_ (Neutral.append ?_ (Neutral.append ?_ ?_))
  · rcases hminus with rfl | rfl
    · exact Neutral.nil _
    · exact ⟨rfl, rfl⟩
  · cases hint with
    | zero => exact ⟨rfl, rfl⟩
    | pos d ds hd _ hds =>
      exact hdigits fun b hb => by
        rcases List.mem_cons.mp hb with rfl | hmem
        · exact hd
        · exact hds b hmem
  · cases hfrac with
    | none => exact Neutral.nil _
    | some ds hds => exact Neutral.append (l := [0x2E]) ⟨rfl, rfl⟩ (hdigits hds.2)
  · cases hexp with
    | none => exact Neutral.nil _
    | some e sign ds he hsign hds =>
      have hletter : Neutral .outside [e] := by rcases he with rfl | rfl <;> exact ⟨rfl, rfl⟩
      have hsign' : Neutral .outside sign := by
        rcases hsign with rfl | rfl | rfl <;> exact ⟨rfl, rfl⟩
      exact Neutral.append hletter (hsign'.append (hdigits hds.2))

theorem isCont_ge {b : UInt8} (h : isCont b = true) : 0x80 ≤ b := by
  simp only [isCont, Bool.and_eq_true, decide_eq_true_eq] at h
  exact h.1

theorem plain_of_ge {b : UInt8} (h : 0x80 ≤ b) : b ≠ 0x22 ∧ b ≠ 0x5C := by
  constructor <;> rintro rfl <;> revert h <;> decide

theorem Utf8.ge {l : List UInt8} (h : Utf8 l) : ∀ b ∈ l, 0x80 ≤ b := by
  cases h with
  | two a b ha _ hb =>
    have ha' : 0x80 ≤ a := UInt8.le_trans (by decide : (0x80 : UInt8) ≤ 0xC2) ha
    simpa using ⟨ha', isCont_ge hb⟩
  | three a b c ha _ hb _ _ hc =>
    have ha' : 0x80 ≤ a := UInt8.le_trans (by decide : (0x80 : UInt8) ≤ 0xE0) ha
    simpa using ⟨ha', isCont_ge hb, isCont_ge hc⟩
  | four a b c d ha _ hb _ _ hc hd =>
    have ha' : 0x80 ≤ a := UInt8.le_trans (by decide : (0x80 : UInt8) ≤ 0xF0) ha
    simpa using ⟨ha', isCont_ge hb, isCont_ge hc, isCont_ge hd⟩

theorem Neutral.escape {l : List UInt8} (c : UInt8) (h : Neutral .inside l) :
    Neutral .inside (0x5C :: c :: l) := ⟨h.place, by simpa [Json.braces, Place.brace, Place.next] using h.braces⟩

theorem hexval_plain {b : UInt8} (h : (jsonHexval b).isSome) : b ≠ 0x22 ∧ b ≠ 0x5C := by
  constructor <;> rintro rfl <;> revert h <;> decide

theorem Chars.neutral {l : List UInt8} (h : Chars l) : Neutral .inside l := by
  induction h with
  | nil => exact Neutral.nil _
  | plain b l _ _ hquote hslash _ ih =>
    exact (neutral_inside_of_forall (l := [b]) (by simpa using ⟨hquote, hslash⟩)).append ih
  | multi c l hc _ ih =>
    exact (neutral_inside_of_forall fun b hb => plain_of_ge (hc.ge b hb)).append ih
  | escape c l _ _ ih => exact ih.escape c
  | unicode h₁ h₂ h₃ h₄ l hhex _ ih =>
    have hfour : Neutral .inside [h₁, h₂, h₃, h₄] :=
      neutral_inside_of_forall fun b hb => hexval_plain (hhex b hb)
    exact (hfour.append ih).escape 0x75

theorem Chars.quoted {l m : List UInt8} (h : Chars l) (hm : Neutral .outside m) :
    Neutral .outside (0x22 :: (l ++ 0x22 :: m)) := by
  have hl := h.neutral
  constructor
  · rw [placeAfter, Place.next, if_pos rfl, placeAfter_append, hl.place]
    exact hm.place
  · rw [braces, Place.next, if_pos rfl, braces_append, hl.braces, hl.place]
    simpa [braces, Place.brace, Place.next] using hm.braces

theorem Neutral.bracketed {l : List UInt8} (h : Neutral .outside l) :
    Neutral .outside (0x5B :: (l ++ [0x5D])) :=
  Neutral.append (l := [0x5B]) ⟨rfl, rfl⟩ (h.append ⟨rfl, rfl⟩)

theorem Neutral.braced {l : List UInt8} (h : Neutral .outside l) :
    Neutral .outside (0x7B :: (l ++ [0x7D])) := by
  constructor
  · change placeAfter .outside (l ++ [0x7D]) = .outside
    rw [placeAfter_append, h.place]
    rfl
  · change 1 + Json.braces .outside (l ++ [0x7D]) = 0
    rw [braces_append, h.place, h.braces]
    rfl

mutual

theorem Value.neutral {l : List UInt8} : Value l → Neutral .outside l
  | .true => ⟨rfl, rfl⟩
  | .false => ⟨rfl, rfl⟩
  | .null => ⟨rfl, rfl⟩
  | .number _ h => h.neutral
  | .string _ h => h.quoted (Neutral.nil _)
  | .emptyArray _ h => h.neutral.bracketed
  | .array _ h => h.neutral.bracketed
  | .emptyObject _ h => h.neutral.braced
  | .object _ h => h.neutral.braced

theorem Elements.neutral {l : List UInt8} : Elements l → Neutral .outside l
  | .one _ _ _ hw hv hw' => hw.neutral.append (hv.neutral.append hw'.neutral)
  | .more _ _ _ _ hw hv hw' hl =>
    hw.neutral.append (hv.neutral.append (hw'.neutral.append (Neutral.append (l := [0x2C]) ⟨rfl, rfl⟩ hl.neutral)))

theorem Members.neutral {l : List UInt8} : Members l → Neutral .outside l
  | .one _ _ _ _ _ _ hw hk hw₁ hw₂ hv hw' =>
    hw.neutral.append (hk.quoted (hw₁.neutral.append
      (Neutral.append (l := [0x3A]) ⟨rfl, rfl⟩ (hw₂.neutral.append (hv.neutral.append hw'.neutral)))))
  | .more _ _ _ _ _ _ _ hw hk hw₁ hw₂ hv hw' hl =>
    hw.neutral.append (hk.quoted (hw₁.neutral.append
      (Neutral.append (l := [0x3A]) ⟨rfl, rfl⟩ (hw₂.neutral.append (hv.neutral.append
        (hw'.neutral.append (Neutral.append (l := [0x2C]) ⟨rfl, rfl⟩ hl.neutral)))))))

end

theorem JsonText.braces_eq_zero {l : List UInt8} (h : JsonText l) : braces .outside l = 0 := by
  obtain ⟨w, v, w', rfl, hw, hv, hw'⟩ := h
  exact (hw.neutral.append (hv.neutral.append hw'.neutral)).braces

end SneppxAlg.Json
