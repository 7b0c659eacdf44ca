import SneppxAlg.Fs.JsonMeaning
import SneppxAlg.Fs.Safetensors
import SneppxAlg.Net.ServingVersions

/-!
# `serving_engine.c`: `handle_traffic`

`json_get_string` takes the string behind the first occurrence of the quoted key, wherever that is.
`json_get_int` reads its number with `json_get_string`, so a member whose value is an integer counts as
missing: no request of the documented form sets a weight (`handleTraffic_engine`). Whether it is
refused depends on the strings in front of the member `model` (`findString_model`): the text of a
string can end in `"model` only where the string ends, and then no colon follows.

Main result: `traffic_correct_iff`.
-/

namespace SneppxAlg.Serving

open Lib.CString
open Safetensors (ascii)

/-! ## The extractor -/

/-- `json_skip`. -/
def jsonSkip (p : Str) : Str := p.dropWhile Json.isWs

/-- What is behind the occurrence of a pattern that `strstr` finds; the pattern is not empty. -/
def behind (pattern : Str) : Str → Option Str
  | [] => none
  | b :: s =>
    if pattern <+: b :: s then some ((b :: s).drop pattern.length) else behind pattern s

def quoted (key : Str) : Str := 0x22 :: (key ++ [0x22])

/-- What is behind the colon and the opening quote. -/
def openString (p : Str) : Option Str :=
  (Json.expect 0x3A (jsonSkip p)).bind fun p => Json.expect 0x22 (jsonSkip p)

/-- The part of `json_get_string` in front of its loop. -/
def findString (json key : Str) : Option Str := (behind ((quoted key).take 127) json).bind openString

/-- The `switch` over the byte behind a backslash. -/
def unescaped (c : UInt8) : UInt8 :=
  if c = 0x6E then 0x0A else if c = 0x74 then 0x09 else if c = 0x72 then 0x0D else c

/-- The loop of `json_get_string`, with room for `n` bytes. -/
def copyString : ℕ → Str → Str
  | 0, _ => []
  | _ + 1, [] => []
  | _ + 1, [b] => if b = 0x22 then [] else [b]
  | n + 1, b :: c :: p =>
    if b = 0x22 then []
    else if b = 0x5C then unescaped c :: copyString n p
    else b :: copyString n (c :: p)

/-- `json_get_string`; none where it returns -1. -/
def jsonGetString (json key : Str) (outSize : ℕ) : Option Str :=
  if outSize = 0 then none else (findString json key).map (copyString (outSize - 1))

/-- `json_get_int`, with `atoll`. -/
def jsonGetInt (json key : Str) (dflt : ℤ) : ℤ :=
  match jsonGetString json key 128 with
  | none => dflt
  | some buf => (strtol buf).getD 0

/-! ## The handler -/

/-- What a handler leaves in `SNEPPX_HttpResponse`. -/
structure Response where
  status : ℕ
  json : Str
deriving DecidableEq

def invalidRequest : Response := ⟨400, ascii "\x7b\"error\":\"invalid_traffic_request\"\x7d"⟩

def notFound : Response := ⟨404, ascii "\x7b\"error\":\"model_or_version_not_found\"\x7d"⟩

def statusOk : Response := ⟨200, ascii "\x7b\"status\":\"ok\"\x7d"⟩

/-- One of the two calls of `SNEPPX_serving_set_weight`; the percentage is cast to an `int`. -/
def setShare (e : Engine) (name version : Str) (percent : ℤ) : ℤ × Engine :=
  if version ≠ [] ∧ percent ≥ 0 then setWeight e name version (Int.bmod percent (2 ^ 32)) else (0, e)

/-- `handle_traffic` for `POST`, the only method it is registered for. -/
def handleTraffic (e : Engine) (body : CStr) : Response × Engine :=
  match jsonGetString body.bytes (ascii "model") 128 with
  | none => (invalidRequest, e)
  | some name =>
    if name = [] then (invalidRequest, e)
    else
      let a := (jsonGetString body.bytes (ascii "a") 128).getD []
      let b := (jsonGetString body.bytes (ascii "b") 128).getD []
      let pa := jsonGetInt body.bytes (ascii "percent_a") (-1)
      let pb := jsonGetInt body.bytes (ascii "percent_b") (-1)
      let (ra, e) := setShare e name a pa
      let (rb, e) := setShare e name b pb
      if ra ≠ 0 ∨ rb ≠ 0 then (notFound, e) else (statusOk, e)

/-! ## Bodies of the documented form -/

/-- Whitespace between two tokens. -/
abbrev Gap := {w : Str // Json.Ws w}

/-- A JSON string, as written between its quotes. -/
structure JsonString where
  raw : Str
  chars : Json.Chars raw

/-- A JSON integer. -/
structure JsonInt where
  negative : Bool
  digits : Str
  isInt : Json.IsInt digits

def JsonInt.text (n : JsonInt) : Str := if n.negative then 0x2D :: n.digits else n.digits

def JsonInt.value (n : JsonInt) : ℤ := if n.negative then -decimal n.digits else decimal n.digits

/-- The members of a body. -/
inductive Member where
  | model
  | a
  | b
  | percentA
  | percentB
deriving DecidableEq

def Member.name : Member → Str
  | .model => ascii "model"
  | .a => ascii "a"
  | .b => ascii "b"
  | .percentA => ascii "percent_a"
  | .percentB => ascii "percent_b"

/-- A body with the five members in any order and with any whitespace. -/
structure TrafficBody where
  order : List Member
  perm : order.Perm [.model, .a, .b, .percentA, .percentB]
  model : JsonString
  a : JsonString
  b : JsonString
  percentA : JsonInt
  percentB : JsonInt
  lead : Gap
  trail : Gap
  beforeName : Member → Gap
  afterName : Member → Gap
  beforeValue : Member → Gap
  afterValue : Member → Gap

namespace TrafficBody

variable (t : TrafficBody)

def string? : Member → Option JsonString
  | .model => some t.model
  | .a => some t.a
  | .b => some t.b
  | .percentA => none
  | .percentB => none

def valueText : Member → Str
  | .model => quoted t.model.raw
  | .a => quoted t.a.raw
  | .b => quoted t.b.raw
  | .percentA => t.percentA.text
  | .percentB => t.percentB.text

def memberText (m : Member) : Str :=
  (t.beforeName m).val ++ 0x22 :: (m.name ++ 0x22 :: ((t.afterName m).val ++ 0x3A ::
    ((t.beforeValue m).val ++ (t.valueText m ++ (t.afterValue m).val))))

/-- The rest of the text from the byte that comes before the next member. -/
def membersText : UInt8 → List Member → Str
  | _, [] => 0x7D :: t.trail.val
  | sep, m :: ms => sep :: (t.memberText m ++ membersText 0x2C ms)

def text : Str := t.lead.val ++ t.membersText 0x7B t.order

end TrafficBody

/-! ## Searching for a key -/

section

variable {key l w s : Str} {b : UInt8}

theorem behind_cons_of_ne (h : b ≠ 0x22) : behind (quoted key) (b :: s) = behind (quoted key) s := by
  rw [behind, if_neg]
  intro hpre
  exact h (List.cons_prefix_cons.mp hpre).1.symm

theorem behind_append (h : 0x22 ∉ w) : behind (quoted key) (w ++ s) = behind (quoted key) s := by
  induction w with
  | nil => rfl
  | cons b w ih =>
    rw [List.mem_cons, not_or] at h
    rw [List.cons_append, behind_cons_of_ne (Ne.symm h.1), ih h.2]

theorem quoted_append (l s : Str) : quoted l ++ s = (0x22 :: l) ++ 0x22 :: s := by
  simp [quoted]

/-- No byte of the key needs an escape. -/
def Plain (key : Str) : Prop := 0x22 ∉ key ∧ 0x5C ∉ key

/-- Every quote but one in front is behind a backslash. -/
def Escaped (l : Str) : Prop := l.IsChain fun x y => y = 0x22 → x = 0x5C

/-- A key that ends at a quote ends at the one that closes the string. -/
theorem key_prefix_iff (hk : Plain key) (hb : b ≠ 0x5C) (hl : Escaped (b :: l)) :
    key ++ [0x22] <+: l ++ 0x22 :: s ↔ l = key := by
  induction key generalizing l b with
  | nil =>
    cases l with
    | nil => simp
    | cons c l =>
      have hc : c ≠ 0x22 := fun hc => hb ((List.isChain_cons_cons.mp hl).1 hc)
      simp [Ne.symm hc]
  | cons k key ih =>
    obtain ⟨h1, h2⟩ := hk
    rw [List.mem_cons, not_or] at h1 h2
    cases l with
    | nil => simp [Ne.symm h1.1]
    | cons c l =>
      rw [List.cons_append, List.cons_append, List.cons_prefix_cons, List.cons.injEq]
      constructor
      · rintro ⟨rfl, hpre⟩
        exact ⟨rfl, (ih ⟨h1.2, h2.2⟩ (Ne.symm h2.1) (List.isChain_cons_cons.mp hl).2).mp hpre⟩
      · rintro ⟨rfl, rfl⟩
        exact ⟨rfl, (ih ⟨h1.2, h2.2⟩ (Ne.symm h2.1) (List.isChain_cons_cons.mp hl).2).mpr rfl⟩

/-- In a string the key is found where the string ends in it, and nowhere else. -/
theorem behind_string (hk : Plain key) (hl : Escaped l) :
    behind (quoted key) (l ++ 0x22 :: s)
      = if 0x22 :: key <:+ l then some s else behind (quoted key) (0x22 :: s) := by
  induction l with
  | nil => simp
  | cons b l ih =>
    have htail : Escaped l := hl.tail
    by_cases hb : b = 0x22
    · subst hb
      by_cases heq : l = key
      · subst heq
        have hpre : quoted l <+: 0x22 :: (l ++ 0x22 :: s) := ⟨s, by simp [quoted]⟩
        rw [List.cons_append, behind, if_pos hpre, if_pos List.suffix_rfl]
        simp [quoted]
      · have hpre : ¬ quoted key <+: 0x22 :: (l ++ 0x22 :: s) := by
          rw [quoted, List.cons_prefix_cons, key_prefix_iff hk (by decide) hl]
          exact fun h => heq h.2
        have hsuf : 0x22 :: key <:+ 0x22 :: l ↔ 0x22 :: key <:+ l := by
          rw [List.suffix_cons_iff, List.cons.injEq]
          exact or_iff_right fun h => heq h.2.symm
        rw [List.cons_append, behind, if_neg hpre, ih htail, if_congr hsuf rfl rfl]
    · have hsuf : 0x22 :: key <:+ b :: l ↔ 0x22 :: key <:+ l := by
        rw [List.suffix_cons_iff, List.cons.injEq]
        exact or_iff_right fun h => hb h.1.symm
      rw [List.cons_append, behind_cons_of_ne hb, ih htail, if_congr hsuf rfl rfl]

end

/-! ## The bytes of a body -/

theorem utf8_ge {c : Str} (h : Json.Utf8 c) : ∀ b ∈ c, 0x80 ≤ b := by
  have hcont {b : UInt8} (hb : Json.isCont b = true) : 0x80 ≤ b := by
    simp only [Json.isCont, Bool.and_eq_true, decide_eq_true_eq] at hb
    exact hb.1
  cases h with
  | two a b h1 h2 hb => grind
  | three a b c h1 h2 hb h3 h4 hc => grind
  | four a b c d h1 h2 hb h3 h4 hc hd => grind

/-- No quote in front, and every other quote is behind a backslash. -/
def Guarded (l : Str) : Prop := l.head? ≠ some 0x22 ∧ Escaped l

theorem Guarded.escaped_cons {l : Str} (h : Guarded l) (b : UInt8) : Escaped (b :: l) :=
  List.isChain_cons.mpr ⟨fun _ hy hquote => absurd (hquote ▸ hy) h.1, h.2⟩

theorem Guarded.append {l c : Str} (h : Guarded l) (hc : 0x22 ∉ c) : Guarded (c ++ l) := by
  induction c with
  | nil => exact h
  | cons b c ih =>
    rw [List.mem_cons, not_or] at hc
    refine ⟨?_, (ih hc.2).escaped_cons b⟩
    simpa using Ne.symm hc.1

theorem guarded_of_chars {l : Str} (h : Json.Chars l) : Guarded l := by
  induction h with
  | nil => exact ⟨by simp, List.isChain_nil⟩
  | plain b l h1 h2 hquote hback hl ih => exact ih.append (c := [b]) (by simpa using Ne.symm hquote)
  | multi c l hc hl ih => exact ih.append fun hmem => absurd (utf8_ge hc _ hmem) (by decide)
  | escape c l hc hl ih =>
    exact ⟨by simp, List.isChain_cons_cons.mpr ⟨fun _ => rfl, ih.escaped_cons c⟩⟩
  | unicode h₁ h₂ h₃ h₄ l hh hl ih =>
    have hquote : (0x22 : UInt8) ∉ [h₁, h₂, h₃, h₄] := fun hmem => by
      simpa [Json.jsonHexval] using hh _ hmem
    exact (ih.append hquote).append (c := [0x5C, 0x75]) (by decide)

theorem JsonString.guarded (j : JsonString) : Guarded j.raw := guarded_of_chars j.chars

theorem isInt_digits {l : Str} (h : Json.IsInt l) : l ≠ [] ∧ ∀ b ∈ l, Json.isdigit b = true := by
  cases h with
  | zero =>
    refine ⟨List.cons_ne_nil _ _, fun b hb => ?_⟩
    obtain rfl := List.mem_singleton.mp hb
    rfl
  | pos d ds hd hd0 hds =>
    refine ⟨List.cons_ne_nil _ _, fun b hb => ?_⟩
    rcases List.mem_cons.mp hb with rfl | hb
    · exact hd
    · exact hds b hb

/-- A byte that is neither a quote nor a small letter. -/
def Punct (b : UInt8) : Prop := b ≠ 0x22 ∧ (b < 0x61 ∨ 0x7A < b)

theorem punct_of_ws {w : Str} (h : Json.Ws w) : ∀ b ∈ w, Punct b := by
  intro b hb
  have := h b hb
  simp only [Json.isWs, Bool.or_eq_true, beq_iff_eq] at this
  rcases this with ((rfl | rfl) | rfl) | rfl <;> exact ⟨by decide, by decide⟩

theorem Gap.punct (w : Gap) : ∀ b ∈ w.val, Punct b := punct_of_ws w.property

theorem JsonInt.text_ne_nil (n : JsonInt) : n.text ≠ [] := by
  have := (isInt_digits n.isInt).1
  unfold JsonInt.text
  split
  · exact List.cons_ne_nil _ _
  · exact this

theorem JsonInt.mem_text {n : JsonInt} {b : UInt8} (h : b ∈ n.text) : b = 0x2D ∨ Json.isdigit b = true := by
  have hdigits := (isInt_digits n.isInt).2
  unfold JsonInt.text at h
  split at h
  · rcases List.mem_cons.mp h with rfl | h
    · exact Or.inl rfl
    · exact Or.inr (hdigits b h)
  · exact Or.inr (hdigits b h)

theorem punct_of_isdigit {b : UInt8} (h : Json.isdigit b = true) : Punct b ∧ Json.isWs b = false := by
  simp only [Json.isdigit, Bool.and_eq_true, decide_eq_true_eq] at h
  have hws : Json.isWs b = false := by
    simp only [Json.isWs, Bool.or_eq_false_iff, beq_eq_false_iff_ne]
    grind
  exact ⟨⟨by grind, Or.inl (by grind)⟩, hws⟩

/-! ## One member -/

theorem Member.plain (m : Member) : Plain m.name := by
  cases m <;> exact ⟨by decide, by decide⟩

theorem Member.take_quoted (m : Member) : (quoted m.name).take 127 = quoted m.name := by
  cases m <;> decide

theorem Member.guarded (m : Member) : Guarded m.name := by
  cases m <;> exact ⟨by decide, by unfold Escaped; decide⟩

/-- A name in quotes ends in a quote and another name only for the same member. -/
theorem Member.suffix_iff (k m : Member) : 0x22 :: k.name <:+ 0x22 :: m.name ↔ k = m := by
  cases k <;> cases m <;> decide

theorem Member.name_eq_cons (m : Member) : ∃ c l, m.name = c :: l ∧ ¬ Punct c := by
  cases m <;> exact ⟨_, _, rfl, fun h => absurd h.2 (by decide)⟩

theorem behind_close (k : Member) {w s : Str} (hw : ∀ b ∈ w, Punct b) (hne : w ≠ []) :
    behind (quoted k.name) (0x22 :: (w ++ s)) = behind (quoted k.name) s := by
  have hquote : 0x22 ∉ w := fun hmem => (hw _ hmem).1 rfl
  have hpre : ¬ quoted k.name <+: 0x22 :: (w ++ s) := by
    intro hpre
    obtain ⟨b, w, rfl⟩ := List.exists_cons_of_ne_nil hne
    obtain ⟨c, l, hname, hc⟩ := k.name_eq_cons
    rw [quoted, hname, List.cons_prefix_cons, List.cons_append, List.cons_append,
      List.cons_prefix_cons] at hpre
    exact hc (hpre.2.1 ▸ hw b List.mem_cons_self)
  rw [behind, if_neg hpre, behind_append hquote]

theorem jsonSkip_gap (w : Gap) {c : UInt8} (hc : Json.isWs c = false) (s : Str) :
    jsonSkip (w.val ++ c :: s) = c :: s := by
  rw [jsonSkip, List.dropWhile_append_of_pos w.property, List.dropWhile_cons, hc]
  rfl

theorem openString_colon (w w' : Gap) {c : UInt8} (hc : Json.isWs c = false) (s : Str) :
    openString (w.val ++ 0x3A :: (w'.val ++ c :: s)) = if c = 0x22 then some s else none := by
  rw [openString, jsonSkip_gap w (by decide), Json.expect, if_pos rfl, Option.bind_some,
    jsonSkip_gap w' hc, Json.expect]

theorem openString_of_ne (w : Gap) {c : UInt8} (hc : Json.isWs c = false) (hcolon : c ≠ 0x3A) (s : Str) :
    openString (w.val ++ c :: s) = none := by
  rw [openString, jsonSkip_gap w hc, Json.expect, if_neg hcolon]
  rfl

theorem findString_name (json : Str) (k : Member) :
    findString json k.name = (behind (quoted k.name) json).bind openString := by
  rw [findString, k.take_quoted]

namespace TrafficBody

variable {t : TrafficBody} {k m : Member} {ms : List Member} {sep : UInt8}

/-- The string that is the value of a member ends, quote included, in the name of another one. -/
def Hides (t : TrafficBody) (m k : Member) : Prop :=
  ∃ j, t.string? m = some j ∧ 0x22 :: k.name <:+ 0x22 :: j.raw

theorem valueText_string {j : JsonString} (h : t.string? m = some j) :
    t.valueText m = quoted j.raw := by
  cases m <;> first | exact congrArg (quoted ∘ JsonString.raw) (Option.some.inj h) | cases h

theorem valueText_int (h : t.string? m = none) : ∃ n : JsonInt, t.valueText m = n.text := by
  cases m <;> first | exact ⟨_, rfl⟩ | cases h

/-- What comes behind a value: a byte that separates or closes. -/
theorem membersText_eq_cons (ms : List Member) : ∃ c s, t.membersText 0x2C ms = c :: s ∧
    (c = 0x7D ∨ c = 0x2C) := by
  cases ms with
  | nil => exact ⟨_, _, rfl, Or.inl rfl⟩
  | cons m ms => exact ⟨_, _, rfl, Or.inr rfl⟩

theorem openString_membersText (w : Gap) (ms : List Member) :
    openString (w.val ++ t.membersText 0x2C ms) = none := by
  obtain ⟨c, s, hs, rfl | rfl⟩ := t.membersText_eq_cons ms
  · rw [hs, openString_of_ne w (by decide) (by decide)]
  · rw [hs, openString_of_ne w (by decide) (by decide)]

theorem behind_membersText (k : Member) (hsep : sep ≠ 0x22) : behind (quoted k.name) (t.membersText sep (m :: ms)) =
    behind (quoted k.name) (0x22 :: (m.name ++ 0x22 :: ((t.afterName m).val ++ 0x3A ::
      ((t.beforeValue m).val ++ (t.valueText m ++ ((t.afterValue m).val ++ t.membersText 0x2C ms)))))) := by
  have hquote : 0x22 ∉ (t.beforeName m).val := fun hmem => ((t.beforeName m).punct _ hmem).1 rfl
  rw [membersText, behind_cons_of_ne hsep, memberText, List.append_assoc, behind_append hquote]
  simp only [List.cons_append, List.append_assoc]

theorem findString_self (hsep : sep ≠ 0x22) : findString (t.membersText sep (m :: ms)) m.name =
    (t.string? m).map fun j => j.raw ++ 0x22 :: ((t.afterValue m).val ++ t.membersText 0x2C ms) := by
  rw [findString_name, behind_membersText m hsep, ← List.cons_append,
    behind_string m.plain (m.guarded.escaped_cons _), if_pos List.suffix_rfl, Option.bind_some]
  cases hm : t.string? m with
  | some j =>
    rw [valueText_string hm, quoted, List.cons_append, openString_colon _ _ (by decide), if_pos rfl]
    simp
  | none =>
    obtain ⟨n, hn⟩ := valueText_int hm
    obtain ⟨c, s, hs⟩ := List.exists_cons_of_ne_nil n.text_ne_nil
    have hc : Json.isWs c = false ∧ c ≠ 0x22 := by
      rcases JsonInt.mem_text (n := n) (hs ▸ List.mem_cons_self) with rfl | hdigit
      · decide
      · exact ⟨(punct_of_isdigit hdigit).2, (punct_of_isdigit hdigit).1.1⟩
    rw [hn, hs, List.cons_append, openString_colon _ _ hc.1, if_neg hc.2]
    rfl

/-- Another member is passed over, unless its value hides what comes behind it. -/
theorem findString_other (hsep : sep ≠ 0x22) (hkm : k ≠ m) [Decidable (t.Hides m k)] :
    findString (t.membersText sep (m :: ms)) k.name =
      if t.Hides m k then none else findString (t.membersText 0x2C ms) k.name := by
  have hname : ¬ 0x22 :: k.name <:+ 0x22 :: m.name := fun h => hkm ((Member.suffix_iff k m).mp h)
  have hcolon : ∀ b ∈ (t.afterName m).val ++ 0x3A :: (t.beforeValue m).val, Punct b := by
    intro b hb
    rcases List.mem_append.mp hb with hb | hb
    · exact (t.afterName m).punct b hb
    · rcases List.mem_cons.mp hb with rfl | hb
      · exact ⟨by decide, by decide⟩
      · exact (t.beforeValue m).punct b hb
  have hskip (s : Str) : behind (quoted k.name) (0x22 :: ((t.afterName m).val ++ 0x3A ::
      ((t.beforeValue m).val ++ s))) = behind (quoted k.name) s := by
    have := behind_close k (s := s) hcolon (by simp)
    rwa [List.append_assoc, List.cons_append] at this
  rw [findString_name, behind_membersText k hsep, ← List.cons_append,
    behind_string k.plain (m.guarded.escaped_cons _), if_neg hname, hskip, findString_name]
  obtain ⟨c, s, hs, hc⟩ := t.membersText_eq_cons ms
  have hafter : ∀ b ∈ (t.afterValue m).val ++ [c], Punct b := by
    intro b hb
    rcases List.mem_append.mp hb with hb | hb
    · exact (t.afterValue m).punct b hb
    · obtain rfl := List.mem_singleton.mp hb
      rcases hc with rfl | rfl <;> exact ⟨by decide, by decide⟩
  have hquote : 0x22 ∉ (t.afterValue m).val := fun hmem => ((t.afterValue m).punct _ hmem).1 rfl
  cases hm : t.string? m with
  | some j =>
    have hhides : t.Hides m k ↔ 0x22 :: k.name <:+ 0x22 :: j.raw := by
      simp [Hides, hm]
    have hclose : behind (quoted k.name) (0x22 :: ((t.afterValue m).val ++ t.membersText 0x2C ms))
        = behind (quoted k.name) (t.membersText 0x2C ms) := by
      have := behind_close k (s := s) hafter (by simp)
      rw [List.append_assoc, List.singleton_append, ← hs] at this
      rw [this, hs, behind_cons_of_ne]
      rcases hc with rfl | rfl <;> decide
    rw [valueText_string hm, quoted_append, behind_string k.plain (j.guarded.escaped_cons _), hclose,
      if_congr hhides rfl rfl]
    split
    · exact openString_membersText _ ms
    · rfl
  | none =>
    have hhides : ¬ t.Hides m k := by
      simp [Hides, hm]
    obtain ⟨n, hn⟩ := valueText_int hm
    have htext : 0x22 ∉ n.text := by
      intro hmem
      rcases JsonInt.mem_text hmem with heq | hdigit
      · exact absurd heq (by decide)
      · exact (punct_of_isdigit hdigit).1.1 rfl
    rw [hn, behind_append htext, behind_append hquote, if_neg hhides]

/-! ## All members -/

theorem findString_nil (k : Member) : findString (t.membersText sep []) k.name = none := by
  have hquote : 0x22 ∉ 0x7D :: t.trail.val := by
    rw [List.mem_cons, not_or]
    exact ⟨by decide, fun hmem => (t.trail.punct _ hmem).1 rfl⟩
  have := @behind_append k.name (0x7D :: t.trail.val) [] hquote
  rw [List.append_nil] at this
  rw [findString_name, membersText, this]
  rfl

/-- The name of a member that is an integer is not found, or no quote is behind its colon. -/
theorem findString_int (hk : t.string? k = none) (hsep : sep ≠ 0x22) (ms : List Member) :
    findString (t.membersText sep ms) k.name = none := by
  induction ms generalizing sep with
  | nil => exact findString_nil k
  | cons m ms ih =>
    classical
    by_cases hkm : k = m
    · subst hkm
      rw [findString_self hsep, hk]
      rfl
    · rw [findString_other hsep hkm, ih (by decide), ite_self]

/-- A member that is a string is found unless one in front of it hides it. -/
theorem findString_string {j : JsonString} (hk : t.string? k = some j) (hsep : sep ≠ 0x22)
    {ms : List Member} (hmem : k ∈ ms) :
    ((∃ m ∈ ms.takeWhile (· ≠ k), t.Hides m k) ∧ findString (t.membersText sep ms) k.name = none) ∨
      ((¬ ∃ m ∈ ms.takeWhile (· ≠ k), t.Hides m k) ∧
        ∃ s, findString (t.membersText sep ms) k.name = some (j.raw ++ 0x22 :: s)) := by
  induction ms generalizing sep with
  | nil => exact absurd hmem List.not_mem_nil
  | cons m ms ih =>
    classical
    by_cases hkm : k = m
    · subst hkm
      refine Or.inr ⟨by simp, (t.afterValue k).val ++ t.membersText 0x2C ms, ?_⟩
      rw [findString_self hsep, hk]
      rfl
    · have hmem' : k ∈ ms := (List.mem_cons.mp hmem).resolve_left hkm
      have htake : (m :: ms).takeWhile (· ≠ k) = m :: ms.takeWhile (· ≠ k) :=
        List.takeWhile_cons_of_pos (by simpa using Ne.symm hkm)
      rw [findString_other hsep hkm, htake]
      by_cases hhides : t.Hides m k
      · exact Or.inl ⟨⟨m, List.mem_cons_self, hhides⟩, if_pos hhides⟩
      · rw [if_neg hhides]
        simpa [hhides] using ih (by decide) hmem'

theorem findString_text (k : Member) : findString t.text k.name = findString (t.membersText 0x7B t.order) k.name := by
  have hquote : 0x22 ∉ t.lead.val := fun hmem => (t.lead.punct _ hmem).1 rfl
  rw [findString_name, findString_name, text, behind_append hquote]

/-! ## Bodies are JSON texts and C strings -/

theorem chars_name (m : Member) : Json.Chars m.name := by
  have hplain (l : Str) (h : ∀ b ∈ l, 0x20 ≤ b ∧ b < 0x80 ∧ b ≠ 0x22 ∧ b ≠ 0x5C) : Json.Chars l := by
    induction l with
    | nil => exact .nil
    | cons b l ih =>
      obtain ⟨⟨h1, h2, h3, h4⟩, hl⟩ := List.forall_mem_cons.mp h
      exact .plain b l h1 h2 h3 h4 (ih hl)
  cases m <;> exact hplain _ (by decide +kernel)

theorem zero_notMem_chars {l : Str} (h : Json.Chars l) : 0 ∉ l := by
  have hcons {b : UInt8} {l : Str} (hb : b ≠ 0) (hl : 0 ∉ l) : 0 ∉ b :: l := by
    simpa using ⟨Ne.symm hb, hl⟩
  induction h with
  | nil => exact List.not_mem_nil
  | plain b l h1 h2 hquote hback hl ih => exact hcons (by rintro rfl; exact absurd h1 (by decide)) ih
  | multi c l hc hl ih =>
    rw [List.mem_append, not_or]
    exact ⟨fun hmem => absurd (utf8_ge hc _ hmem) (by decide), ih⟩
  | escape c l hc hl ih =>
    exact hcons (by decide) (hcons (by rintro rfl; exact absurd hc (by decide)) ih)
  | unicode h₁ h₂ h₃ h₄ l hh hl ih =>
    have hhex : (0 : UInt8) ∉ [h₁, h₂, h₃, h₄] := fun hmem => by
      simpa [Json.jsonHexval] using hh _ hmem
    refine hcons (by decide) (hcons (by decide) ?_)
    exact fun hmem => (List.mem_append (s := [h₁, h₂, h₃, h₄]).mp hmem).elim hhex ih

theorem zero_notMem_valueText (m : Member) : 0 ∉ t.valueText m := by
  have hquoted (j : JsonString) : 0 ∉ quoted j.raw := by
    simpa [quoted] using zero_notMem_chars j.chars
  have hint (n : JsonInt) : 0 ∉ n.text := by
    intro hmem
    rcases JsonInt.mem_text hmem with heq | hdigit
    · exact absurd heq (by decide)
    · exact absurd hdigit (by decide)
  cases m with
  | model => exact hquoted t.model
  | a => exact hquoted t.a
  | b => exact hquoted t.b
  | percentA => exact hint t.percentA
  | percentB => exact hint t.percentB

theorem zero_notMem_gap (w : Gap) : 0 ∉ w.val :=
  fun hmem => absurd (w.property _ hmem) (by decide)

theorem zero_notMem_membersText (hsep : sep ≠ 0) (ms : List Member) : 0 ∉ t.membersText sep ms := by
  induction ms generalizing sep with
  | nil => simpa [membersText] using zero_notMem_gap t.trail
  | cons m ms ih =>
    have hname : 0 ∉ m.name := zero_notMem_chars (chars_name m)
    have hrest := @ih 0x2C (by decide)
    simp [membersText, memberText, Ne.symm hsep, hname, hrest, zero_notMem_gap,
      zero_notMem_valueText]

/-- The body as the handler sees it. -/
def cStr (t : TrafficBody) : CStr where
  bytes := t.text
  zero_notMem := by
    rw [text, List.mem_append, not_or]
    exact ⟨zero_notMem_gap t.lead, zero_notMem_membersText (by decide) t.order⟩

/-! ## What is promised of an answer -/

/-- A string member in front of `model` ends, quote included, in `"model`. -/
def Hidden (t : TrafficBody) : Prop :=
  ∃ m ∈ t.order.takeWhile (· ≠ .model), t.Hides m .model

end TrafficBody

def weightOf (e : Engine) (name versionId : Str) : Option ℤ := do
  let m ← lookup e name
  let j ← versionIndex m versionId
  let v ← m.versions[j]?
  some v.weight

def weights (e : Engine) : List (List ℤ) := e.models.map fun m => m.versions.map Version.weight

namespace TrafficBody

/-- The version that a string of the body names has a percentage, clamped, as its weight. -/
def Share (t : TrafficBody) (e : Engine) (version : JsonString) (percent : JsonInt) : Prop :=
  ∃ name versionId, Json.CharsDenote t.model.raw name ∧ Json.CharsDenote version.raw versionId ∧
    weightOf e name versionId = some (max 0 (min percent.value 100))

/-- Both named versions have the weights that the body gives. -/
def Shares (t : TrafficBody) (e : Engine) : Prop :=
  t.Share e t.a t.percentA ∧ t.Share e t.b t.percentB

/-- The request fails and changes no weight, or it succeeds and the weights are set. -/
def Honoured (t : TrafficBody) (e : Engine) : Prop :=
  (400 ≤ (handleTraffic e t.cStr).1.status ∧ weights (handleTraffic e t.cStr).2 = weights e) ∨
    ((handleTraffic e t.cStr).1.status = 200 ∧ t.Shares (handleTraffic e t.cStr).2)

variable {t : TrafficBody} {e : Engine}

theorem jsonGetInt_eq {k : Member} (hk : t.string? k = none) (dflt : ℤ) :
    jsonGetInt t.text k.name dflt = dflt := by
  rw [jsonGetInt, jsonGetString, if_neg (by decide), findString_text,
    findString_int hk (by decide)]
  rfl

theorem copyString_quote (n : ℕ) (s : Str) : copyString n (0x22 :: s) = [] := by
  cases n <;> cases s <;> rfl

theorem copyString_ne_nil {b : UInt8} (hb : b ≠ 0x22) (n : ℕ) (s : Str) :
    copyString (n + 1) (b :: s) ≠ [] := by
  cases s with
  | nil => simp [copyString, hb]
  | cons c s =>
    rw [copyString, if_neg hb]
    split <;> exact List.cons_ne_nil _ _

theorem setShare_default (e : Engine) (name version : Str) : setShare e name version (-1) = (0, e) :=
  if_neg fun h => absurd h.2 (by decide)

/-- No documented request changes the engine, and it is refused only for its model. -/
theorem handleTraffic_eq :
    ((t.model.raw = [] ∨ t.Hidden) ∧ handleTraffic e t.cStr = (invalidRequest, e)) ∨
      (¬ (t.model.raw = [] ∨ t.Hidden) ∧ handleTraffic e t.cStr = (statusOk, e)) := by
  have hmem : Member.model ∈ t.order := t.perm.mem_iff.mpr List.mem_cons_self
  have hname : jsonGetString t.text (ascii "model") 128
      = (findString (t.membersText 0x7B t.order) Member.model.name).map (copyString 127) := by
    rw [jsonGetString, if_neg (by decide), ← findString_text]
    rfl
  have hpa : jsonGetInt t.text (ascii "percent_a") (-1) = -1 := jsonGetInt_eq (k := .percentA) rfl _
  have hpb : jsonGetInt t.text (ascii "percent_b") (-1) = -1 := jsonGetInt_eq (k := .percentB) rfl _
  have hrun : handleTraffic e t.cStr = match jsonGetString t.text (ascii "model") 128 with
      | none => (invalidRequest, e)
      | some name => if name = [] then (invalidRequest, e) else (statusOk, e) := by
    simp [handleTraffic, cStr, hpa, hpb, setShare_default]
  rcases @findString_string t .model 0x7B t.model rfl (by decide) t.order hmem with
    ⟨hhidden, hfind⟩ | ⟨hhidden, s, hfind⟩
  · exact Or.inl ⟨Or.inr hhidden, by rw [hrun, hname, hfind]; rfl⟩
  · rw [hrun, hname, hfind, Option.map_some]
    cases hraw : t.model.raw with
    | nil => exact Or.inl ⟨Or.inl rfl, by rw [List.nil_append, copyString_quote]; rfl⟩
    | cons b l =>
      have hb : b ≠ 0x22 := by
        simpa [hraw] using t.model.guarded.1
      refine Or.inr ⟨fun h => h.elim (List.cons_ne_nil _ _) hhidden, if_neg ?_⟩
      exact copyString_ne_nil hb 126 _

/-- No request of the documented form changes a weight. -/
theorem handleTraffic_engine : (handleTraffic e t.cStr).2 = e := by
  rcases handleTraffic_eq (t := t) (e := e) with ⟨-, heq⟩ | ⟨-, heq⟩ <;> rw [heq]

end TrafficBody

/-- The answer is right exactly if the model is empty or hidden, or if the weights are already those
that the body gives. -/
theorem traffic_correct_iff (e : Engine) (t : TrafficBody) :
    t.Honoured e ↔ t.model.raw = [] ∨ t.Hidden ∨ t.Shares e := by
  rw [← or_assoc, TrafficBody.Honoured, TrafficBody.handleTraffic_engine]
  rcases TrafficBody.handleTraffic_eq (t := t) (e := e) with ⟨hrefused, heq⟩ | ⟨hrefused, heq⟩
  · rw [heq]
    simp [hrefused, invalidRequest]
  · rw [heq]
    simp [hrefused, statusOk]

/-! ## A request of the documented form -/

theorem weightOf_mem {e : Engine} {name versionId : Str} {w : ℤ} (h : weightOf e name versionId = some w) :
    ∃ m ∈ e.models, ∃ v ∈ m.versions, v.weight = w := by
  obtain ⟨m, hm, h⟩ := Option.bind_eq_some_iff.mp h
  obtain ⟨j, -, h⟩ := Option.bind_eq_some_iff.mp h
  obtain ⟨v, hv, h⟩ := Option.bind_eq_some_iff.mp h
  obtain ⟨i, -, hi⟩ := Option.bind_eq_some_iff.mp hm
  exact ⟨m, List.mem_of_getElem? hi, v, List.mem_of_getElem? hv, Option.some.inj h⟩

/-- The model `m` with all of its traffic on the first of two versions. -/
def twoVersions : Engine :=
  { engineCreate with
    models := [⟨ascii "m", [⟨ascii "v1", [], 100, 0⟩, ⟨ascii "v2", [], 0, 0⟩], 0⟩] }

/-- `{"model":"m","a":"v1","b":"v2","percent_a":70,"percent_b":30}`. -/
def seventyThirty : TrafficBody where
  order := [.model, .a, .b, .percentA, .percentB]
  perm := List.Perm.refl _
  model := ⟨ascii "m", .plain _ _ (by decide) (by decide) (by decide) (by decide) .nil⟩
  a := ⟨ascii "v1", .plain _ _ (by decide) (by decide) (by decide) (by decide)
    (.plain _ _ (by decide) (by decide) (by decide) (by decide) .nil)⟩
  b := ⟨ascii "v2", .plain _ _ (by decide) (by decide) (by decide) (by decide)
    (.plain _ _ (by decide) (by decide) (by decide) (by decide) .nil)⟩
  percentA := ⟨false, ascii "70", .pos _ _ (by decide) (by decide) (by decide +kernel)⟩
  percentB := ⟨false, ascii "30", .pos _ _ (by decide) (by decide) (by decide +kernel)⟩
  lead := ⟨[], by simp [Json.Ws]⟩
  trail := ⟨[], by simp [Json.Ws]⟩
  beforeName := fun _ => ⟨[], by simp [Json.Ws]⟩
  afterName := fun _ => ⟨[], by simp [Json.Ws]⟩
  beforeValue := fun _ => ⟨[], by simp [Json.Ws]⟩
  afterValue := fun _ => ⟨[], by simp [Json.Ws]⟩

/-- The answer is 200, and the weights are still 100 and 0. -/
theorem not_honoured_seventyThirty : ¬ seventyThirty.Honoured twoVersions := by
  have hstatus : (handleTraffic twoVersions seventyThirty.cStr).1.status = 200 := by
    rfl
  rintro (⟨hfail, -⟩ | ⟨-, hshares⟩)
  · omega
  · rw [TrafficBody.handleTraffic_engine] at hshares
    obtain ⟨name, versionId, -, -, hweight⟩ := hshares.1
    obtain ⟨m, hm, v, hv, hvw⟩ := weightOf_mem hweight
    have hvalue : seventyThirty.percentA.value = 70 := by decide
    obtain rfl := List.mem_singleton.mp hm
    rw [hvalue] at hvw
    simp only [List.mem_cons, List.not_mem_nil, or_false] at hv
    rcases hv with rfl | rfl <;> simp at hvw

end SneppxAlg.Serving
