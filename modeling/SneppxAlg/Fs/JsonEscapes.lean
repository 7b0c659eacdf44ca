import SneppxAlg.Fs.JsonLexemes
import SneppxAlg.Fs.JsonMeaning

/-!
# The escapes of a string

`unescape_string` decodes a string as the RFC does, unless one of its `\u` escapes is the zero character
or half a pair of surrogates: a C string ends at the first zero byte, and a pair becomes six bytes where
its character has four.

Main result: `cString_unescapeString_iff`.
-/

namespace SneppxAlg.Json

/-! ## One character at a time -/

theorem unescapeString_plain {b : UInt8} (h : b ≠ 0x5C) (l : List UInt8) :
    unescapeString (b :: l) = b :: unescapeString l := by
  cases l with
  | nil => rfl
  | cons c l =>
    rw [unescapeString.eq_def]
    exact if_neg h

theorem unescapeString_append {c : List UInt8} (hc : (0x5C : UInt8) ∉ c) (l : List UInt8) :
    unescapeString (c ++ l) = c ++ unescapeString l := by
  induction c with
  | nil => rfl
  | cons b c ih =>
    rw [List.mem_cons, not_or] at hc
    rw [List.cons_append, unescapeString_plain (Ne.symm hc.1), ih hc.2, List.cons_append]

theorem unescapeString_escape {c : UInt8} (h : c ≠ 0x75) (l : List UInt8) :
    unescapeString (0x5C :: c :: l) = escaped c :: unescapeString l := by
  rw [unescapeString.eq_def]
  exact (if_pos rfl).trans (if_neg h)

theorem unescapeString_unicode {h₁ h₂ h₃ h₄ : UInt8} {code : ℕ} (h : hexCode h₁ h₂ h₃ h₄ = some code)
    (l : List UInt8) :
    unescapeString (0x5C :: 0x75 :: h₁ :: h₂ :: h₃ :: h₄ :: l) = encodeUnit code ++ unescapeString l := by
  rw [unescapeString, if_pos rfl, if_pos rfl]
  simp only [h]

theorem simpleEscapes_plain {b : UInt8} (h : b ≠ 0x5C) (l : List UInt8) :
    simpleEscapes (b :: l) = simpleEscapes l := by
  cases l with
  | nil => rfl
  | cons c l =>
    rw [simpleEscapes.eq_def]
    exact if_neg h

theorem simpleEscapes_append {c : List UInt8} (hc : (0x5C : UInt8) ∉ c) (l : List UInt8) :
    simpleEscapes (c ++ l) = simpleEscapes l := by
  induction c with
  | nil => rfl
  | cons b c ih =>
    rw [List.mem_cons, not_or] at hc
    rw [List.cons_append, simpleEscapes_plain (Ne.symm hc.1), ih hc.2]

theorem simpleEscapes_escape {c : UInt8} (h : c ≠ 0x75) (l : List UInt8) :
    simpleEscapes (0x5C :: c :: l) = simpleEscapes l := by
  rw [simpleEscapes.eq_def]
  exact (if_pos rfl).trans (if_neg h)

theorem simpleEscapes_unicode (h₁ h₂ h₃ h₄ : UInt8) (l : List UInt8) :
    simpleEscapes (0x5C :: 0x75 :: h₁ :: h₂ :: h₃ :: h₄ :: l)
      = ((hexCode h₁ h₂ h₃ h₄).all simpleCode && simpleEscapes l) := by
  rw [simpleEscapes, if_pos rfl, if_pos rfl]

/-- The escapes of the text and of what follows are looked at apart. -/
def Splits (l : List UInt8) : Prop :=
  ∀ rest, simpleEscapes (l ++ rest) = (simpleEscapes l && simpleEscapes rest)

theorem splits_of_notMem {l : List UInt8} (h : (0x5C : UInt8) ∉ l) :
    simpleEscapes l = true ∧ Splits l := by
  have hl : simpleEscapes l = true := by
    rw [← List.append_nil l, simpleEscapes_append h]
    rfl
  refine ⟨hl, fun rest => ?_⟩
  rw [simpleEscapes_append h, hl, Bool.true_and]

theorem Splits.append {l l' : List UInt8} (h : Splits l) (h' : Splits l') : Splits (l ++ l') := by
  intro rest
  rw [List.append_assoc, h, h', h l', Bool.and_assoc]

/-! ## Codes -/

theorem jsonHexval_lt {c : UInt8} {k : ℕ} (h : jsonHexval c = some k) : k < 16 := by
  grind [jsonHexval, UInt8.le_iff_toNat_le]

theorem hexCode_eq_some {h₁ h₂ h₃ h₄ : UInt8} {code : ℕ} (h : hexCode h₁ h₂ h₃ h₄ = some code) :
    (∀ c ∈ [h₁, h₂, h₃, h₄], (jsonHexval c).isSome) ∧ code < 0x10000 := by
  simp only [hexCode, Option.bind_eq_bind, Option.bind_eq_some_iff, Option.some.injEq] at h
  obtain ⟨a, ha, b, hb, c, hc, d, hd, rfl⟩ := h
  refine ⟨by simp [ha, hb, hc, hd], ?_⟩
  have h1 := jsonHexval_lt ha
  have h2 := jsonHexval_lt hb
  have h3 := jsonHexval_lt hc
  have h4 := jsonHexval_lt hd
  omega

/-- The table has the escapes of the grammar, and the parser decodes them as the table says. -/
theorem escapeTable_spec : ∀ p ∈ escapeTable,
    p.1 ∈ [0x22, 0x5C, 0x2F, 0x62, 0x66, 0x6E, 0x72, (0x74 : UInt8)] ∧ p.1 ≠ 0x75 ∧
      escaped p.1 = p.2 ∧ p.2 ≠ 0 := by
  have hall : escapeTable.all (fun p =>
      p.1 ∈ [0x22, 0x5C, 0x2F, 0x62, 0x66, 0x6E, 0x72, (0x74 : UInt8)] ∧ p.1 ≠ 0x75 ∧
        escaped p.1 = p.2 ∧ p.2 ≠ 0) = true := by decide
  simpa only [List.all_eq_true, decide_eq_true_eq] using hall

theorem CharsDenote.chars {raw v : List UInt8} (h : CharsDenote raw v) : Chars raw := by
  induction h with
  | nil => exact .nil
  | plain b l v h1 h2 h3 h4 _ ih => exact .plain b l h1 h2 h3 h4 ih
  | multi c l v hc _ ih => exact .multi c l hc ih
  | escape c b l v hcb _ ih =>
    exact .escape c l (escapeTable_spec _ hcb).1 ih
  | unicode h₁ h₂ h₃ h₄ c l v hc _ ih => exact .unicode h₁ h₂ h₃ h₄ l (hexCode_eq_some hc).1 ih
  | pair h₁ h₂ h₃ h₄ k₁ k₂ k₃ k₄ high low c l v hh _ _ hl _ _ _ _ ih =>
    exact .unicode h₁ h₂ h₃ h₄ _ (hexCode_eq_some hh).1 (.unicode k₁ k₂ k₃ k₄ l (hexCode_eq_some hl).1 ih)

/-- The escapes of one character are encoded as the RFC says. -/
theorem encodeUnit_char {c : Char} (h : c.toNat < 0x10000) :
    encodeUnit c.toNat = String.utf8EncodeChar c := by
  change encodeUnit c.val.toNat = _
  have hv : c.val.toNat < 0x10000 := h
  unfold encodeUnit String.utf8EncodeChar
  dsimp only
  generalize c.val.toNat = v at hv
  by_cases h1 : v < 0x80
  · rw [if_pos h1, if_pos (show v ≤ 0x7f by omega)]
  · rw [if_neg h1, if_neg (show ¬v ≤ 0x7f by omega)]
    by_cases h2 : v < 0x800
    · rw [if_pos h2, if_pos (show v ≤ 0x7ff by omega), Nat.mod_eq_of_lt (show v / 64 < 0x20 by omega),
        Nat.add_comm 0xC0, Nat.add_comm 0x80]
    · rw [if_neg h2, if_neg (show ¬v ≤ 0x7ff by omega), if_pos (show v ≤ 0xffff by omega),
        Nat.mod_eq_of_lt (show v / 4096 < 0x10 by omega), Nat.add_comm 0xE0, Nat.add_comm 0x80,
        Nat.add_comm 0x80]

theorem zero_ne_ofNat {k : ℕ} (h0 : 0 < k) (hk : k < 256) : (0 : UInt8) ≠ UInt8.ofNat k := by
  intro he
  have := congrArg UInt8.toNat he
  rw [UInt8.toNat_ofNat_of_lt' hk] at this
  exact h0.ne this

theorem zero_mem_encodeUnit {code : ℕ} (h : code < 0x10000) : (0 : UInt8) ∈ encodeUnit code ↔ code = 0 := by
  unfold encodeUnit
  by_cases h1 : code < 0x80
  · rw [if_pos h1]
    by_cases h0 : code = 0
    · simp [h0]
    · simp [h0, zero_ne_ofNat (Nat.pos_of_ne_zero h0) (show code < 256 by omega)]
  · have h0 : code ≠ 0 := by omega
    rw [if_neg h1]
    by_cases h2 : code < 0x800
    · rw [if_pos h2]
      simp only [List.mem_cons, List.not_mem_nil, or_false, h0, iff_false, not_or]
      exact ⟨zero_ne_ofNat (by omega) (by omega), zero_ne_ofNat (by omega) (by omega)⟩
    · rw [if_neg h2]
      simp only [List.mem_cons, List.not_mem_nil, or_false, h0, iff_false, not_or]
      exact ⟨zero_ne_ofNat (by omega) (by omega), zero_ne_ofNat (by omega) (by omega),
        zero_ne_ofNat (by omega) (by omega)⟩

theorem length_encodeUnit {code : ℕ} (h : 0x800 ≤ code) : (encodeUnit code).length = 3 := by
  rw [encodeUnit, if_neg (by omega), if_neg (by omega)]
  rfl

theorem simpleCode_char {c : Char} : simpleCode c.toNat = true ↔ c.toNat ≠ 0 := by
  have hv : ¬(0xD800 ≤ c.toNat ∧ c.toNat < 0xE000) := by
    have := c.valid
    simp only [UInt32.isValidChar, Nat.isValidChar] at this
    change ¬(0xD800 ≤ c.val.toNat ∧ c.val.toNat < 0xE000)
    omega
  simp only [simpleCode, Bool.and_eq_true, decide_eq_true_eq, Bool.not_eq_true', Bool.and_eq_false_iff,
    decide_eq_false_iff_not]
  constructor
  · exact fun h => h.1
  · intro h
    refine ⟨h, ?_⟩
    by_cases h1 : 0xD800 ≤ c.toNat
    · exact .inr fun h2 => hv ⟨h1, h2⟩
    · exact .inl h1

theorem simpleCode_surrogate {code : ℕ} (h1 : 0xD800 ≤ code) (h2 : code < 0xE000) :
    simpleCode code = false := by
  simp [simpleCode, h1, h2]

/-- The character of a pair of surrogates. -/
theorem length_pair {c : Char} (h : 0x10000 ≤ c.toNat) :
    (String.utf8EncodeChar c).length = 4 ∧ (0 : UInt8) ∉ String.utf8EncodeChar c := by
  have hv : 0x10000 ≤ c.val.toNat := h
  unfold String.utf8EncodeChar
  dsimp only
  generalize c.val.toNat = v at hv
  rw [if_neg (show ¬v ≤ 0x7f by omega), if_neg (show ¬v ≤ 0x7ff by omega),
    if_neg (show ¬v ≤ 0xffff by omega)]
  refine ⟨rfl, ?_⟩
  simp only [List.mem_cons, List.not_mem_nil, or_false, not_or]
  exact ⟨zero_ne_ofNat (by omega) (by omega), zero_ne_ofNat (by omega) (by omega),
    zero_ne_ofNat (by omega) (by omega), zero_ne_ofNat (by omega) (by omega)⟩

/-! ## Strings -/

theorem notMem_backslash {c : List UInt8} (h : Utf8 c) : (0x5C : UInt8) ∉ c ∧ (0 : UInt8) ∉ c := by
  constructor
  · exact fun hmem => absurd (h.high _ hmem) (by decide)
  · exact fun hmem => absurd (h.high _ hmem) (by decide)

theorem CharsDenote.splits {raw v : List UInt8} (h : CharsDenote raw v) : Splits raw := by
  induction h with
  | nil => exact fun rest => rfl
  | plain b l v _ _ _ hb _ ih =>
    intro rest
    rw [List.cons_append, simpleEscapes_plain hb, simpleEscapes_plain hb, ih]
  | multi c l v hc _ ih => exact (splits_of_notMem (notMem_backslash hc).1).2.append ih
  | escape c b l v hcb _ ih =>
    intro rest
    have hc := (escapeTable_spec _ hcb).2.1
    rw [List.cons_append, List.cons_append, simpleEscapes_escape hc, simpleEscapes_escape hc, ih]
  | unicode h₁ h₂ h₃ h₄ c l v hc _ ih =>
    intro rest
    simp only [List.cons_append, simpleEscapes_unicode, ih rest, Bool.and_assoc]
  | pair h₁ h₂ h₃ h₄ k₁ k₂ k₃ k₄ high low c l v _ _ _ _ _ _ _ _ ih =>
    intro rest
    simp only [List.cons_append, simpleEscapes_unicode, ih rest, Bool.and_assoc]

/-- How the bytes of a string that the parser reads compare with those that the RFC asks for. -/
structure Compare (raw v : List UInt8) : Prop where
  length_le : v.length ≤ (unescapeString raw).length
  zero : (0 : UInt8) ∉ v → (0 : UInt8) ∉ unescapeString raw
  simple : simpleEscapes raw = true → unescapeString raw = v ∧ (0 : UInt8) ∉ v
  longer : simpleEscapes raw = false → (0 : UInt8) ∉ v → v.length < (unescapeString raw).length

/-- A character that both read as the same bytes, of which none is zero. -/
theorem Compare.cons {raw v : List UInt8} (h : Compare raw v) {p q : List UInt8}
    (hu : unescapeString (p ++ raw) = q ++ unescapeString raw)
    (hs : simpleEscapes (p ++ raw) = simpleEscapes raw) (h0 : (0 : UInt8) ∉ q) :
    Compare (p ++ raw) (q ++ v) := by
  refine ⟨?_, ?_, ?_, ?_⟩
  · rw [hu, List.length_append, List.length_append]
    exact Nat.add_le_add_left h.length_le _
  · intro hz
    rw [List.mem_append, not_or] at hz
    rw [hu, List.mem_append, not_or]
    exact ⟨h0, h.zero hz.2⟩
  · intro hsimple
    obtain ⟨he, hz⟩ := h.simple (hs ▸ hsimple)
    rw [hu, he, List.mem_append, not_or]
    exact ⟨rfl, h0, hz⟩
  · intro hsimple hz
    rw [List.mem_append, not_or] at hz
    rw [hu, List.length_append, List.length_append]
    exact Nat.add_lt_add_left (h.longer (hs ▸ hsimple) hz.2) _

/-- An escape of one character. -/
theorem Compare.unicode {raw v : List UInt8} (h : Compare raw v) {h₁ h₂ h₃ h₄ : UInt8} {c : Char}
    (hc : hexCode h₁ h₂ h₃ h₄ = some c.toNat) :
    Compare (0x5C :: 0x75 :: h₁ :: h₂ :: h₃ :: h₄ :: raw) (String.utf8EncodeChar c ++ v) := by
  have hlt := (hexCode_eq_some hc).2
  have hu := unescapeString_unicode hc raw
  have hs := simpleEscapes_unicode h₁ h₂ h₃ h₄ raw
  rw [encodeUnit_char hlt] at hu
  rw [hc, Option.all_some] at hs
  by_cases h0 : c.toNat = 0
  · have hzero : (0 : UInt8) ∈ String.utf8EncodeChar c ++ v := by
      apply List.mem_append_left
      rw [← encodeUnit_char hlt]
      exact (zero_mem_encodeUnit hlt).2 h0
    have hsimple : simpleCode c.toNat = false := by rw [h0]; rfl
    refine ⟨?_, fun hz => absurd hzero hz, fun he => ?_, fun _ hz => absurd hzero hz⟩
    · rw [hu, List.length_append, List.length_append]
      exact Nat.add_le_add_left h.length_le _
    · rw [hs, hsimple] at he
      cases he
  · have hbytes : (0 : UInt8) ∉ String.utf8EncodeChar c := by
      rw [← encodeUnit_char hlt]
      exact fun hmem => h0 ((zero_mem_encodeUnit hlt).1 hmem)
    rw [simpleCode_char.2 h0, Bool.true_and] at hs
    exact h.cons (p := [0x5C, 0x75, h₁, h₂, h₃, h₄]) hu hs hbytes

/-- The escapes of a pair of surrogates: the parser encodes each by itself. -/
theorem Compare.pair {raw v : List UInt8} (h : Compare raw v) {h₁ h₂ h₃ h₄ k₁ k₂ k₃ k₄ : UInt8}
    {high low : ℕ} {c : Char} (hh : hexCode h₁ h₂ h₃ h₄ = some high) (hh₁ : 0xD800 ≤ high)
    (hh₂ : high < 0xDC00) (hl : hexCode k₁ k₂ k₃ k₄ = some low) (hl₁ : 0xDC00 ≤ low)
    (hc : c.toNat = 0x10000 + (high - 0xD800) * 0x400 + (low - 0xDC00)) :
    Compare (0x5C :: 0x75 :: h₁ :: h₂ :: h₃ :: h₄ :: 0x5C :: 0x75 :: k₁ :: k₂ :: k₃ :: k₄ :: raw)
      (String.utf8EncodeChar c ++ v) := by
  obtain ⟨hlen, -⟩ := length_pair (c := c) (by omega)
  have hshorter : (String.utf8EncodeChar c ++ v).length
      < (encodeUnit high ++ (encodeUnit low ++ unescapeString raw)).length := by
    simp only [List.length_append, hlen, length_encodeUnit (show 0x800 ≤ high by omega),
      length_encodeUnit (show 0x800 ≤ low by omega)]
    have := h.length_le
    omega
  have hu : unescapeString
      (0x5C :: 0x75 :: h₁ :: h₂ :: h₃ :: h₄ :: 0x5C :: 0x75 :: k₁ :: k₂ :: k₃ :: k₄ :: raw)
      = encodeUnit high ++ (encodeUnit low ++ unescapeString raw) := by
    rw [unescapeString_unicode hh, unescapeString_unicode hl]
  refine ⟨?_, fun hz => ?_, fun he => ?_, fun _ _ => ?_⟩
  · rw [hu]
    exact hshorter.le
  · rw [List.mem_append, not_or] at hz
    rw [hu, List.mem_append, List.mem_append, zero_mem_encodeUnit (hexCode_eq_some hh).2,
      zero_mem_encodeUnit (hexCode_eq_some hl).2]
    rintro (h0 | h0 | h0)
    · omega
    · omega
    · exact h.zero hz.2 h0
  · rw [simpleEscapes_unicode, hh, Option.all_some, simpleCode_surrogate hh₁ (by omega)] at he
    cases he
  · rw [hu]
    exact hshorter

theorem CharsDenote.compare {raw v : List UInt8} (h : CharsDenote raw v) : Compare raw v := by
  induction h with
  | nil => exact ⟨le_rfl, fun h => h, fun _ => ⟨rfl, List.not_mem_nil⟩, fun h => by cases h⟩
  | plain b l v hb _ _ hne _ ih =>
    have h0 : (0 : UInt8) ∉ [b] := by
      rw [List.mem_singleton]
      rintro rfl
      exact absurd hb (by decide)
    exact ih.cons (p := [b]) (q := [b]) (unescapeString_plain hne l) (simpleEscapes_plain hne l) h0
  | multi c l v hc _ ih =>
    obtain ⟨hback, h0⟩ := notMem_backslash hc
    exact ih.cons (unescapeString_append hback l) (simpleEscapes_append hback l) h0
  | escape c b l v hcb _ ih =>
    obtain ⟨-, hc, he, h0⟩ := escapeTable_spec _ hcb
    have hu : unescapeString (0x5C :: c :: l) = b :: unescapeString l :=
      (unescapeString_escape hc l).trans (congrArg (· :: unescapeString l) he)
    exact ih.cons (p := [0x5C, c]) (q := [b]) hu (simpleEscapes_escape hc l)
      (fun hmem => h0 (List.mem_singleton.1 hmem).symm)
  | unicode h₁ h₂ h₃ h₄ c l v hc _ ih => exact ih.unicode hc
  | pair h₁ h₂ h₃ h₄ k₁ k₂ k₃ k₄ high low c l v hh hh₁ hh₂ hl hl₁ _ hc _ ih =>
    exact ih.pair hh hh₁ hh₂ hl hl₁ hc

theorem cString_eq_self {l : List UInt8} : cString l = l ↔ (0 : UInt8) ∉ l := by
  rw [cString, List.takeWhile_eq_self_iff]
  constructor
  · exact fun h hmem => absurd (h 0 hmem) (by simp)
  · intro h b hb
    simp only [decide_eq_true_eq]
    rintro rfl
    exact h hb

theorem zero_notMem_cString (l : List UInt8) : (0 : UInt8) ∉ cString l := by
  intro h
  have := List.mem_takeWhile_imp h
  simp at this

/-- A string is decoded as the RFC says exactly when its escapes are simple. -/
theorem cString_unescapeString_iff {raw v : List UInt8} (h : CharsDenote raw v) :
    cString (unescapeString raw) = v ↔ simpleEscapes raw = true := by
  have hcmp := h.compare
  constructor
  · intro he
    have hz : (0 : UInt8) ∉ v := he ▸ zero_notMem_cString _
    rw [cString_eq_self.2 (hcmp.zero hz)] at he
    by_contra hs
    have hlt := hcmp.longer (Bool.not_eq_true _ ▸ hs) hz
    rw [he] at hlt
    exact lt_irrefl _ hlt
  · intro hs
    obtain ⟨he, hz⟩ := hcmp.simple hs
    rw [he, cString_eq_self.2 hz]

end SneppxAlg.Json
