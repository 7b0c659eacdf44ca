import SneppxAlg.Fs.Safetensors

/-!
# `safetensors.c`: reading back what was written

`save` writes up to seven zero bytes between the header and the byte buffer, which `header_len` does
not count, and `read_tensor` looks for the byte buffer right after the header.
-/

namespace SneppxAlg.Safetensors

open Lib.Bytes

@[simp] theorem ok_bind {α β : Type} (a : α) (f : α → Except Failure β) :
    (Except.ok a >>= f) = f a := rfl

theorem exists_of_bind {α β : Type} {x : Except Failure α} {f : α → Except Failure β} {b : β}
    (h : (x >>= f) = .ok b) : ∃ a, x = .ok a ∧ f a = .ok b := by
  cases x with
  | error e => cases h
  | ok a => exact ⟨a, rfl, h⟩

/-! ## The pieces of the header -/

@[simp] theorem peek_cons (c : UInt8) (p : List UInt8) : peek (c :: p) = .ok c := rfl

/-- A byte that starts a lexeme of the header. -/
theorem skipWs_cons {c : UInt8} (p : List UInt8)
    (h : ¬ (c = 0x20 ∨ c = 0x0A ∨ c = 0x09 ∨ c = 0x0D)) : skipWs (c :: p) = .ok (c :: p) := by
  rw [skipWs, if_neg h]

/-- A name that is written between quotes as it is: neither a quote nor a backslash is in it. -/
def Plain (s : List UInt8) : Prop := 0x22 ∉ s ∧ 0x5C ∉ s

instance (s : List UInt8) : Decidable (Plain s) := inferInstanceAs (Decidable (_ ∧ _))

theorem parseStringLoop_plain {s : List UInt8} {room : ℕ} (p : List UInt8) (h : Plain s)
    (h0 : 0 ∉ s) (hs : s.length ≤ room) :
    parseStringLoop room (s ++ 0x22 :: p) = .ok (s, p) := by
  induction s generalizing room with
  | nil =>
    rw [List.nil_append, parseStringLoop.eq_def]
    rfl
  | cons c s ih =>
    simp only [Plain, List.mem_cons, not_or, List.length_cons] at h h0 hs
    obtain ⟨⟨hq, hq'⟩, hb, hb'⟩ := h
    have hroom : room ≠ 0 := by omega
    have ih' := @ih (room - 1) ⟨hq', hb'⟩ h0.2 (by omega)
    rw [List.cons_append, parseStringLoop.eq_def]
    dsimp only
    rw [if_neg (Ne.symm hq), if_neg (by simp [Ne.symm h0.1, hroom]), if_neg (Ne.symm hb), ih']
    rfl

theorem parseString_plain {s : List UInt8} {outMax : ℕ} (p : List UInt8) (h : Plain s)
    (h0 : 0 ∉ s) (hs : s.length < outMax) :
    parseString (0x22 :: (s ++ 0x22 :: p)) outMax = .ok (s, p) := by
  have hloop := parseStringLoop_plain p h h0 (Nat.le_sub_one_of_lt hs)
  have htake : s.takeWhile (· ≠ 0) = s := by
    rw [List.takeWhile_eq_self_iff]
    intro c hc
    simpa using fun h : c = 0 => h0 (h ▸ hc)
  simp only [parseString, peek_cons, ok_bind, ne_eq, not_true_eq_false, if_false, List.tail_cons, hloop]
  exact congrArg (fun s => Except.ok (s, p)) htake

/-! ### Numbers -/

theorem toNat_of_mem_toDigits {n : ℕ} {d : Char} (h : d ∈ Nat.toDigits 10 n) :
    48 ≤ d.toNat ∧ d.toNat ≤ 57 :=
  Char.isDigit_iff_toNat.mp (Nat.isDigit_of_mem_toDigits (by norm_num) (by norm_num) h)

theorem isdigit_of_mem_decimal {n : ℕ} {c : UInt8} (h : c ∈ decimal n) : isdigit c = true := by
  obtain ⟨d, hd, rfl⟩ := List.mem_map.mp h
  have hd := toNat_of_mem_toDigits hd
  have hmod : d.toNat % 2 ^ 8 = d.toNat := Nat.mod_eq_of_lt (by omega)
  simp only [isdigit, UInt8.le_iff_toNat_le, UInt8.toNat_ofNat', Bool.and_eq_true,
    decide_eq_true_eq, hmod]
  exact hd

theorem span_append {f : UInt8 → Bool} {s : List UInt8} {c : UInt8} (p : List UInt8)
    (hs : ∀ b ∈ s, f b = true) (hc : f c = false) : span f (s ++ c :: p) = .ok (s, c :: p) := by
  induction s with
  | nil => simp [span, hc]
  | cons b s ih =>
    rw [List.cons_append, span, if_pos (hs b List.mem_cons_self),
      ih fun b hb => hs b (List.mem_cons_of_mem _ hb)]
    rfl

theorem digitsVal_decimal (n : ℕ) : digitsVal (decimal n) = n := by
  have hval := Nat.ofDigitChars_ten_toDigits (n := n)
  rw [Nat.ofDigitChars_eq_foldl] at hval
  rw [digitsVal, decimal, List.foldl_map]
  refine Eq.trans (List.foldl_ext _ _ 0 ?_) hval
  intro v d hd
  have hd := toNat_of_mem_toDigits hd
  have hmod : d.toNat % 2 ^ 8 = d.toNat := Nat.mod_eq_of_lt (by omega)
  rw [UInt8.toNat_ofNat', hmod]
  rfl

theorem decimal_eq_cons (n : ℕ) : ∃ c s, decimal n = c :: s := by
  cases h : decimal n with
  | nil => simp [decimal] at h
  | cons c s => exact ⟨c, s, rfl⟩

theorem length_decimal_le {n : ℕ} (h : n < 2 ^ 64) : (decimal n).length ≤ 20 := by
  rw [decimal, List.length_map, Nat.length_toDigits_le_iff (by norm_num) (by norm_num)]
  omega

/-- A digit is neither white space nor a sign nor a bracket. -/
theorem isdigit_ne {c : UInt8} (h : isdigit c = true) :
    isspace c = false ∧ c ≠ 0x2B ∧ c ≠ 0x2D ∧ c ≠ 0x5D ∧
      ¬ (c = 0x20 ∨ c = 0x0A ∨ c = 0x09 ∨ c = 0x0D) := by
  grind [isdigit, isspace]

/-- `strtol` reads back a number that `%zu` printed, up to `LONG_MAX`. -/
theorem strtol_decimal (longMax n : ℕ) {c : UInt8} (p : List UInt8) (hc : isdigit c = false) :
    strtol longMax (decimal n ++ c :: p) = .ok ((min n longMax : ℕ), c :: p) := by
  have hspan := span_append p (fun b hb => isdigit_of_mem_decimal (n := n) hb) hc
  obtain ⟨d, s, hds⟩ := decimal_eq_cons n
  obtain ⟨hws, hplus, hminus, -, -⟩ :=
    isdigit_ne (isdigit_of_mem_decimal (hds ▸ List.mem_cons_self : d ∈ decimal n))
  have hsp : span isspace (decimal n ++ c :: p) = .ok ([], decimal n ++ c :: p) := by
    rw [hds, List.cons_append, span, hws]
    rfl
  have hpeek : peek (decimal n ++ c :: p) = .ok d := by
    rw [hds]
    rfl
  have hne : decimal n ≠ [] := by
    rw [hds]
    exact List.cons_ne_nil _ _
  simp only [strtol, hsp, ok_bind, hpeek, hplus, hminus, or_self, if_false, hspan, hne,
    digitsVal_decimal]
  rw [Nat.cast_min, min_comm]

/-- What `strtol` makes of an extent or an offset. -/
def clamp (longMax n : ℕ) : ℕ := min n longMax

theorem toSize_clamp {longMax n : ℕ} (h : n < 2 ^ 64) :
    (((min n longMax : ℕ) : ℤ) % 2 ^ 64).toNat = clamp longMax n := by
  have hlt : min n longMax < 2 ^ 64 := lt_of_le_of_lt (min_le_left _ _) h
  rw [clamp]
  omega

/-- One number of a printed list, and the comma or the bracket after it. -/
theorem parseIntArrayLoop_step (longMax maxN fuel : ℕ) {out : List ℕ} {d : ℕ} {c : UInt8}
    (p : List UInt8) (hd : d < 2 ^ 64) (hlen : out.length < maxN) (hc : c = 0x2C ∨ c = 0x5D) :
    parseIntArrayLoop longMax maxN (fuel + 1) out (decimal d ++ c :: p) =
      if c = 0x2C then parseIntArrayLoop longMax maxN fuel (out ++ [clamp longMax d]) p
      else .ok (out ++ [clamp longMax d], p) := by
  have hstr : strtol longMax (decimal d ++ c :: p) = .ok ((min d longMax : ℕ), c :: p) := by
    apply strtol_decimal
    rcases hc with rfl | rfl <;> rfl
  have hskip : skipWs (c :: p) = .ok (c :: p) := by
    apply skipWs_cons
    rcases hc with rfl | rfl <;> decide
  obtain ⟨b, s, hbs⟩ := decimal_eq_cons d
  obtain ⟨-, -, -, hclose, hws⟩ :=
    isdigit_ne (isdigit_of_mem_decimal (hbs ▸ List.mem_cons_self : b ∈ decimal d))
  have hskip' : skipWs (decimal d ++ c :: p) = .ok (decimal d ++ c :: p) := by
    rw [hbs]
    exact skipWs_cons _ hws
  have hpeek : peek (decimal d ++ c :: p) = .ok b := by
    rw [hbs]
    rfl
  simp only [parseIntArrayLoop, hskip', ok_bind, hpeek, if_neg hclose, hstr, if_pos hlen,
    toSize_clamp hd, hskip, peek_cons, List.tail_cons]
  rcases hc with rfl | rfl <;> rfl

/-- The loop of `parse_int_array` on a printed list of numbers. -/
theorem parseIntArrayLoop_decimals (longMax maxN : ℕ) {fuel : ℕ} {out : List ℕ} {d : ℕ}
    {ds : List ℕ} (p : List UInt8) (hd : ∀ x ∈ d :: ds, x < 2 ^ 64)
    (hfuel : ds.length < fuel) (hlen : out.length + (d :: ds).length ≤ maxN) :
    parseIntArrayLoop longMax maxN fuel out
        (decimal d ++ (ds.flatMap (fun d => 0x2C :: decimal d) ++ 0x5D :: p)) =
      .ok (out ++ (d :: ds).map (clamp longMax), p) := by
  obtain ⟨fuel, rfl⟩ : ∃ n, fuel = n + 1 := ⟨fuel - 1, by omega⟩
  induction ds generalizing fuel out d with
  | nil =>
    rw [List.flatMap_nil, List.nil_append,
      parseIntArrayLoop_step longMax maxN fuel p (hd d List.mem_cons_self)
        (by simpa using hlen) (Or.inr rfl)]
    rfl
  | cons d' ds ih =>
    simp only [List.length_cons] at hlen hfuel
    obtain ⟨fuel, rfl⟩ : ∃ n, fuel = n + 1 := ⟨fuel - 1, by omega⟩
    rw [List.flatMap_cons, List.cons_append, List.cons_append, List.append_assoc,
      parseIntArrayLoop_step longMax maxN (fuel + 1) _ (hd d List.mem_cons_self) (by omega)
        (Or.inl rfl), if_pos rfl,
      ih (fun x hx => hd x (List.mem_cons_of_mem _ hx)) (by simp; omega) fuel (by omega)]
    simp

/-- The text of a list of numbers between brackets. -/
def arrayText (ds : List ℕ) : List UInt8 := 0x5B :: ((shapePieces ds).flatten ++ [0x5D])

theorem flatten_shapePieces (d : ℕ) (ds : List ℕ) :
    (shapePieces (d :: ds)).flatten = decimal d ++ ds.flatMap fun d => 0x2C :: decimal d := by
  rw [shapePieces, List.flatten_cons]
  congr 1
  induction ds with
  | nil => rfl
  | cons d ds ih =>
    rw [List.flatMap_cons, List.flatMap_cons, List.flatten_append, ih]
    simp [ascii]

theorem length_le_flatMap_decimal (ds : List ℕ) :
    ds.length ≤ (ds.flatMap fun d => 0x2C :: decimal d).length := by
  induction ds with
  | nil => simp
  | cons d ds ih =>
    simp only [List.flatMap_cons, List.length_append, List.length_cons]
    omega

/-- `parse_int_array` reads back a printed list of numbers. -/
theorem parseIntArray_arrayText (longMax : ℕ) {maxN : ℕ} {ds : List ℕ} (p : List UInt8)
    (hd : ∀ x ∈ ds, x < 2 ^ 64) (hlen : ds.length ≤ maxN) :
    parseIntArray longMax (arrayText ds ++ p) maxN = .ok (ds.map (clamp longMax), p) := by
  simp only [parseIntArray, arrayText, List.cons_append, peek_cons, ok_bind, ne_eq, not_true_eq_false,
    if_false, List.tail_cons, List.append_assoc, List.nil_append]
  cases ds with
  | nil => rfl
  | cons d ds =>
    rw [flatten_shapePieces, List.append_assoc]
    have hfuel := length_le_flatMap_decimal ds
    refine parseIntArrayLoop_decimals longMax maxN p hd ?_ (by simpa using hlen)
    simp only [List.length_cons, List.length_append]
    omega

/-! ### Entries -/

theorem parseFields_comma (longMax fuel : ℕ) (e : Entry) (p : List UInt8) :
    parseFields longMax (fuel + 1) e (0x2C :: p) = parseFields longMax fuel e p := rfl

theorem parseFields_close (longMax fuel : ℕ) (e : Entry) (p : List UInt8) :
    parseFields longMax (fuel + 1) e (0x7D :: p) = .ok (e, p) := rfl

/-- A field whose name is plain and whose value does not start with white space. -/
theorem parseFields_field (longMax fuel : ℕ) {e e' : Entry} (fld : List UInt8) {v q : List UInt8}
    (hfld : Plain fld) (h0 : 0 ∉ fld) (hlen : fld.length < 64) (hv : skipWs v = .ok v)
    (hval : parseField longMax fld e v = .ok (some (e', q))) :
    parseFields longMax (fuel + 1) e (0x22 :: (fld ++ 0x22 :: 0x3A :: v)) =
      parseFields longMax fuel e' q := by
  have hstr := parseString_plain (0x3A :: v) hfld h0 hlen
  rw [parseFields]
  simp (disch := decide) only [skipWs_cons, ok_bind, peek_cons, hstr, attempt, List.tail_cons, hv, hval]
  rfl

theorem dtypeToStr_spec (dt : DType) :
    Plain (dtypeToStr dt) ∧ 0 ∉ dtypeToStr dt ∧ (dtypeToStr dt).length < 32 := by
  cases dt with
  | other c h =>
    change Plain (ascii "F32") ∧ 0 ∉ ascii "F32" ∧ (ascii "F32").length < 32
    decide
  | _ => decide

theorem parseField_dtype (longMax : ℕ) (e : Entry) (dt : DType) (p : List UInt8) :
    parseField longMax (ascii "dtype") e (0x22 :: (dtypeToStr dt ++ 0x22 :: p)) =
      .ok (some ({ e with dtype := dtypeFromStr (dtypeToStr dt) }, p)) := by
  obtain ⟨hplain, h0, hlen⟩ := dtypeToStr_spec dt
  rw [parseField, if_pos rfl, parseString_plain p hplain h0 hlen]
  rfl

theorem parseField_shape (longMax : ℕ) (e : Entry) {ds : List ℕ} (p : List UInt8)
    (hd : ∀ d ∈ ds, d < 2 ^ 64) (hlen : ds.length ≤ 8) :
    parseField longMax (ascii "shape") e (arrayText ds ++ p) =
      .ok (some ({ e with shape := ds.map (clamp longMax) }, p)) := by
  rw [parseField, if_neg (by decide), if_pos rfl, parseIntArray_arrayText longMax p hd hlen]
  rfl

theorem parseField_offsets (longMax : ℕ) (e : Entry) {s t : ℕ} (p : List UInt8)
    (hs : s < 2 ^ 64) (ht : t < 2 ^ 64) :
    parseField longMax (ascii "data_offsets") e (arrayText [s, t] ++ p) =
      .ok (some ({ e with offStart := clamp longMax s, offEnd := clamp longMax t }, p)) := by
  have hd : ∀ d ∈ [s, t], d < 2 ^ 64 := by
    rintro d hd
    rcases List.mem_pair.mp hd with rfl | rfl
    · exact hs
    · exact ht
  rw [parseField, if_neg (by decide), if_neg (by decide), if_pos rfl,
    parseIntArray_arrayText longMax p hd (by simp)]
  rfl

def fieldsText (e : Entry) : List UInt8 :=
  0x22 :: (ascii "dtype" ++ 0x22 :: 0x3A :: 0x22 :: (dtypeToStr e.dtype ++ 0x22 :: 0x2C ::
    0x22 :: (ascii "shape" ++ 0x22 :: 0x3A :: (arrayText e.shape ++ 0x2C ::
      0x22 :: (ascii "data_offsets" ++ 0x22 :: 0x3A :: (arrayText [e.offStart, e.offEnd] ++
        [0x7D]))))))

/-- What the reader makes of an entry that was written. -/
def Entry.reread (longMax : ℕ) (e : Entry) : Entry :=
  { name := e.name, dtype := dtypeFromStr (dtypeToStr e.dtype),
    shape := e.shape.map (clamp longMax), offStart := clamp longMax e.offStart,
    offEnd := clamp longMax e.offEnd }

theorem parseFields_fieldsText (longMax fuel : ℕ) {e : Entry} (p : List UInt8)
    (hfuel : 6 ≤ fuel) (hshape : ∀ d ∈ e.shape, d < 2 ^ 64) (hndim : e.shape.length ≤ 8)
    (hstart : e.offStart < 2 ^ 64) (hend : e.offEnd < 2 ^ 64) :
    parseFields longMax fuel { name := e.name } (fieldsText e ++ p) =
      .ok (e.reread longMax, p) := by
  obtain ⟨fuel, rfl⟩ : ∃ n, fuel = n + 6 := ⟨fuel - 6, by omega⟩
  have hdtype (q : List UInt8) := parseFields_field longMax (fuel + 5) (ascii "dtype") (by decide) (by decide)
    (by decide) rfl (parseField_dtype longMax { name := e.name } e.dtype q)
  have hsh (q : List UInt8) := parseFields_field longMax (fuel + 3) (ascii "shape") (by decide)
    (by decide) (by decide) rfl (parseField_shape longMax
      { name := e.name, dtype := dtypeFromStr (dtypeToStr e.dtype) } q hshape hndim)
  have hoff := parseFields_field longMax (fuel + 1) (ascii "data_offsets") (by decide) (by decide)
    (by decide) rfl (parseField_offsets longMax
      { name := e.name, dtype := dtypeFromStr (dtypeToStr e.dtype),
        shape := e.shape.map (clamp longMax) } (0x7D :: p) hstart hend)
  simp only [fieldsText, List.cons_append, List.append_assoc, List.nil_append]
  rw [hdtype, parseFields_comma, hsh, parseFields_comma, hoff, parseFields_close]
  rfl

def entryText (e : Entry) : List UInt8 := 0x22 :: (e.name ++ 0x22 :: 0x3A :: 0x7B :: fieldsText e)

theorem flatten_entryPieces (e : Entry) : (entryPieces e).flatten = entryText e := by
  simp [entryPieces, entryText, fieldsText, arrayText, shapePieces, ascii]

/-- The text of the entries after the first, and the end of the header. -/
def tailText (es : List Entry) : List UInt8 := (es.flatMap fun e => 0x2C :: entryText e) ++ [0x7D]

def headerText : List Entry → List UInt8
  | [] => [0x7B, 0x7D]
  | e :: es => 0x7B :: (entryText e ++ tailText es)

theorem flatten_headerPieces (es : List Entry) : (headerPieces es).flatten = headerText es := by
  cases es with
  | nil => rfl
  | cons e es =>
    have htail : ((es.flatMap fun e => ascii "," :: entryPieces e) ++ [ascii "\x7d"]).flatten =
        tailText es := by
      induction es with
      | nil => rfl
      | cons e es ih =>
        rw [List.flatMap_cons, List.append_assoc, List.flatten_append, ih, List.flatten_cons,
          flatten_entryPieces]
        simp [tailText, ascii]
    rw [headerPieces, List.append_assoc, List.append_assoc, List.flatten_append,
      List.flatten_append, flatten_entryPieces, htail]
    rfl

/-- An entry that the reader can take in as it is written. -/
structure Entry.Printable (e : Entry) : Prop where
  plain : Plain e.name
  cstr : 0 ∉ e.name
  short : e.name.length ≤ 255
  ne_metadata : e.name ≠ ascii "__metadata__"
  shape_lt : ∀ d ∈ e.shape, d < 2 ^ 64
  ndim : e.shape.length ≤ 8
  start_lt : e.offStart < 2 ^ 64
  end_lt : e.offEnd < 2 ^ 64

theorem parseEntries_entryText (longMax fuel : ℕ) (h : Reader) {e : Entry} (p : List UInt8)
    (he : e.Printable) :
    parseEntries longMax (fuel + 1) h (entryText e ++ p) =
      parseEntries longMax fuel { h with entries := h.entries ++ [e.reread longMax] } p := by
  have hstr := parseString_plain (0x3A :: 0x7B :: (fieldsText e ++ p)) he.plain he.cstr
    (Nat.lt_succ_of_le he.short)
  have hfields := parseFields_fieldsText longMax (0x7B :: (fieldsText e ++ p)).length p
    (by simp [fieldsText, ascii]) he.shape_lt he.ndim he.start_lt he.end_lt
  rw [parseEntries]
  simp (disch := decide) only [entryText, List.cons_append, List.append_assoc, skipWs_cons, ok_bind,
    peek_cons, hstr, attempt, List.tail_cons, if_neg he.ne_metadata, hfields]
  rfl

/-- The loop over the header, from after an entry. -/
theorem parseEntries_tailText (longMax : ℕ) {fuel : ℕ} (h : Reader) {es : List Entry}
    (p : List UInt8) (hes : ∀ e ∈ es, e.Printable) (hfuel : 2 * es.length < fuel) :
    parseEntries longMax fuel h (tailText es ++ p) =
      .ok { h with entries := h.entries ++ es.map (Entry.reread longMax) } := by
  induction es generalizing fuel h with
  | nil =>
    obtain ⟨fuel, rfl⟩ : ∃ n, fuel = n + 1 := ⟨fuel - 1, by omega⟩
    rw [List.map_nil, List.append_nil]
    rfl
  | cons e es ih =>
    simp only [List.length_cons] at hfuel
    obtain ⟨fuel, rfl⟩ : ∃ n, fuel = n + 2 := ⟨fuel - 2, by omega⟩
    have hcomma (q : List UInt8) :
        parseEntries longMax (fuel + 2) h (0x2C :: q) = parseEntries longMax (fuel + 1) h q := rfl
    have htext : tailText (e :: es) ++ p = 0x2C :: (entryText e ++ (tailText es ++ p)) := by
      simp [tailText]
    rw [htext, hcomma, parseEntries_entryText longMax fuel h _ (hes e List.mem_cons_self),
      ih _ (fun e he => hes e (List.mem_cons_of_mem _ he)) (by omega)]
    simp

theorem length_tailText (es : List Entry) : 2 * es.length < (tailText es).length := by
  induction es with
  | nil => simp [tailText]
  | cons e es ih =>
    simp only [tailText, entryText, List.flatMap_cons, List.cons_append, List.length_cons,
      List.length_append] at ih ⊢
    omega

theorem headerLen_leBytes {n : ℕ} (p : List UInt8) (h : n < 2 ^ 64) :
    headerLen (leBytes 8 n ++ p) = n := by
  have htake : (leBytes 8 n ++ p).take 8 = leBytes 8 n := by
    rw [List.take_append_of_le_length (by simp), List.take_of_length_le (by simp)]
  rw [headerLen, htake, leVal_leBytes, Nat.mod_eq_of_lt (by omega)]

/-- `open` on a header that was written, whatever follows it in the file. -/
theorem safetensorsOpen_headerText {longMax : ℕ} {es : List Entry} {p file : List UInt8}
    (hes : ∀ e ∈ es, e.Printable)
    (hfile : file = leBytes 8 (headerText es).length ++ (headerText es ++ p))
    (hlen : file.length ≤ longMax) (hmax : longMax < 2 ^ 63) :
    safetensorsOpen longMax file =
      .ok { buf := file, entries := es.map (Entry.reread longMax) } := by
  have hlength : file.length = 8 + ((headerText es).length + p.length) := by
    rw [hfile, List.length_append, length_leBytes, List.length_append]
  have hhdr : headerLen file = (headerText es).length := by
    rw [hfile]
    exact headerLen_leBytes _ (by omega)
  have hdrop : file.drop 8 = headerText es ++ p := by
    rw [hfile, List.drop_append_of_le_length (by simp), List.drop_of_length_le (by simp),
      List.nil_append]
  have hmod : (8 + headerLen file) % 2 ^ 64 = 8 + headerLen file := Nat.mod_eq_of_lt (by omega)
  rw [safetensorsOpen, if_neg (by omega), if_neg (by omega), if_neg (by omega), hdrop]
  cases es with
  | nil => rfl
  | cons e es =>
    have htail := length_tailText es
    rw [headerText, List.cons_append, skipWs_cons _ (by decide)]
    simp only [ok_bind, peek_cons, ne_eq, not_true_eq_false, if_false, List.tail_cons,
      List.length_cons, List.append_assoc]
    rw [parseEntries_entryText longMax _ _ _ (hes e List.mem_cons_self),
      parseEntries_tailText longMax _ p (fun e he => hes e (List.mem_cons_of_mem _ he))
        (by simp only [List.length_append]; omega)]
    rfl

/-! ## What the reader accepts

Whatever the bytes of the file, an entry of an open file has a name that fits `parse_string`'s
buffer and is not the key of the metadata, a data type of the enumeration and at most eight
extents. -/

/-- An entry that `open` can produce. -/
structure Entry.Readable (e : Entry) : Prop where
  short : e.name.length ≤ 255
  ne_metadata : e.name ≠ ascii "__metadata__"
  dtype : ∀ c h, e.dtype ≠ .other c h
  ndim : e.shape.length ≤ 8

theorem eq_of_attempt {α : Type} {x : Except Failure α} {a : α}
    (h : attempt x = .ok (some a)) : x = .ok a := by
  rcases x with (_ | _) | b
  · cases h
  · cases h
  · cases h
    rfl

theorem parseStringLoop_length {room : ℕ} {p s q : List UInt8}
    (h : parseStringLoop room p = .ok (s, q)) : s.length ≤ room := by
  fun_induction parseStringLoop room p generalizing s q with
  | case1 => cases h
  | case2 room p =>
    cases h
    simp
  | case3 => cases h
  | case4 => cases h
  | case5 room hquote c p hroom ih =>
    obtain ⟨⟨s', q'⟩, hloop, h⟩ := exists_of_bind h
    cases h
    have := ih hloop
    simp only [List.length_cons]
    omega
  | case6 room c p hquote hroom hslash ih =>
    obtain ⟨⟨s', q'⟩, hloop, h⟩ := exists_of_bind h
    cases h
    have := ih hloop
    simp only [List.length_cons]
    omega

theorem parseString_length {p s q : List UInt8} {outMax : ℕ}
    (h : parseString p outMax = .ok (s, q)) : s.length ≤ outMax - 1 := by
  obtain ⟨c, -, h⟩ := exists_of_bind h
  split at h
  · cases h
  · obtain ⟨⟨s', q'⟩, hloop, h⟩ := exists_of_bind h
    cases h
    exact le_trans (List.takeWhile_sublist _).length_le (parseStringLoop_length hloop)

theorem parseIntArrayLoop_length {longMax maxN fuel : ℕ} {out ds : List ℕ} {p q : List UInt8}
    (hout : out.length ≤ maxN) (h : parseIntArrayLoop longMax maxN fuel out p = .ok (ds, q)) :
    ds.length ≤ maxN := by
  induction fuel generalizing out p with
  | zero => cases h
  | succ fuel ih =>
    obtain ⟨p₁, -, h⟩ := exists_of_bind h
    obtain ⟨c, -, h⟩ := exists_of_bind h
    split at h
    · cases h
      exact hout
    obtain ⟨⟨v, p₂⟩, -, h⟩ := exists_of_bind h
    have hout' : (if out.length < maxN then out ++ [(v % 2 ^ 64).toNat] else out).length ≤ maxN := by
      split
      · simpa using by assumption
      · exact hout
    obtain ⟨p₃, -, h⟩ := exists_of_bind h
    obtain ⟨c', -, h⟩ := exists_of_bind h
    split at h
    · exact ih hout' h
    split at h
    · cases h
      exact hout'
    · cases h

theorem parseIntArray_length {longMax maxN : ℕ} {ds : List ℕ} {p q : List UInt8}
    (h : parseIntArray longMax p maxN = .ok (ds, q)) : ds.length ≤ maxN := by
  obtain ⟨c, -, h⟩ := exists_of_bind h
  split at h
  · cases h
  · exact parseIntArrayLoop_length (Nat.zero_le _) h

theorem dtypeFromStr_ne_other (s : List UInt8) (c : ℤ) (h : c < 0 ∨ 11 < c) :
    dtypeFromStr s ≠ .other c h := by
  have hite {P : Prop} [Decidable P] {a b : DType} (ha : a ≠ .other c h) (hb : b ≠ .other c h) :
      (if P then a else b) ≠ .other c h := by
    split
    · exact ha
    · exact hb
  unfold dtypeFromStr
  iterate 12 refine hite nofun ?_
  exact nofun

theorem parseField_readable {longMax : ℕ} {fld p q : List UInt8} {e e' : Entry}
    (he : e.Readable) (h : parseField longMax fld e p = .ok (some (e', q))) : e'.Readable := by
  unfold parseField at h
  split at h
  · obtain ⟨r, -, h⟩ := exists_of_bind h
    rcases r with _ | ⟨dt, p⟩ <;> cases h
    exact { he with dtype := dtypeFromStr_ne_other dt }
  split at h
  · obtain ⟨r, hr, h⟩ := exists_of_bind h
    rcases r with _ | ⟨ds, p⟩ <;> cases h
    exact { he with ndim := parseIntArray_length (eq_of_attempt hr) }
  split at h
  · obtain ⟨r, -, h⟩ := exists_of_bind h
    rcases r with _ | ⟨ds, p⟩
    · cases h
    · simp only [Option.map_some, Except.ok.injEq, Option.some.injEq] at h
      split at h
      all_goals
        cases h
        exact ⟨he.short, he.ne_metadata, he.dtype, he.ndim⟩
  · obtain ⟨p, -, h⟩ := exists_of_bind h
    cases h
    exact he

theorem parseFields_readable {longMax fuel : ℕ} {p q : List UInt8} {e e' : Entry}
    (he : e.Readable) (h : parseFields longMax fuel e p = .ok (e', q)) : e'.Readable := by
  induction fuel generalizing e p with
  | zero => cases h
  | succ fuel ih =>
    obtain ⟨p₁, -, h⟩ := exists_of_bind h
    obtain ⟨c, -, h⟩ := exists_of_bind h
    split at h
    · cases h
      exact he
    split at h
    · exact ih he h
    obtain ⟨r, -, h⟩ := exists_of_bind h
    rcases r with _ | ⟨fld, af⟩
    · cases h
      exact he
    obtain ⟨p₂, -, h⟩ := exists_of_bind h
    obtain ⟨c', -, h⟩ := exists_of_bind h
    split at h
    · cases h
      exact he
    obtain ⟨p₃, -, h⟩ := exists_of_bind h
    obtain ⟨r, hr, h⟩ := exists_of_bind h
    rcases r with _ | ⟨e₁, p₄⟩
    · cases h
      exact he
    · exact ih (parseField_readable he hr) h

theorem parseEntries_readable {longMax fuel : ℕ} {p : List UInt8} {h h' : Reader}
    (hes : ∀ e ∈ h.entries, e.Readable) (hok : parseEntries longMax fuel h p = .ok h') :
    ∀ e ∈ h'.entries, e.Readable := by
  induction fuel generalizing h p with
  | zero => cases hok
  | succ fuel ih =>
    obtain ⟨p₁, -, hok⟩ := exists_of_bind hok
    obtain ⟨c, -, hok⟩ := exists_of_bind hok
    split at hok
    · cases hok
      exact hes
    split at hok
    · exact ih hes hok
    obtain ⟨r, hr, hok⟩ := exists_of_bind hok
    rcases r with _ | ⟨key, after⟩
    · cases hok
      exact hes
    have hkey := parseString_length (eq_of_attempt hr)
    obtain ⟨p₂, -, hok⟩ := exists_of_bind hok
    obtain ⟨c', -, hok⟩ := exists_of_bind hok
    split at hok
    · cases hok
      exact hes
    obtain ⟨p₃, -, hok⟩ := exists_of_bind hok
    split at hok
    · obtain ⟨⟨raw, p₄⟩, -, hok⟩ := exists_of_bind hok
      exact ih (h := { h with metaJson := some raw }) hes hok
    rename_i hne
    obtain ⟨c'', -, hok⟩ := exists_of_bind hok
    split at hok
    · cases hok
      exact hes
    obtain ⟨⟨e, p₄⟩, hfields, hok⟩ := exists_of_bind hok
    have hnew : Entry.Readable { name := key } := ⟨hkey, hne, nofun, by simp⟩
    refine ih (fun e' he' => ?_) hok
    rcases List.mem_append.mp he' with he' | he'
    · exact hes e' he'
    · rw [List.mem_singleton.mp he']
      exact parseFields_readable hnew hfields

theorem safetensorsOpen_readable {longMax : ℕ} {file : List UInt8} {h : Reader}
    (hok : safetensorsOpen longMax file = .ok h) : ∀ e ∈ h.entries, e.Readable := by
  unfold safetensorsOpen at hok
  split_ifs at hok
  obtain ⟨p, -, hok⟩ := exists_of_bind hok
  obtain ⟨c, -, hok⟩ := exists_of_bind hok
  split at hok
  · cases hok
  · exact parseEntries_readable (by simp) hok

/-! ## What the writer writes -/

/-- The buffer of `safe_append` between two calls. -/
structure Buf.Ok (b : Buf) : Prop where
  alloc : b.alloc = b.cap
  cap : 256 ≤ b.cap
  len : b.text.length < b.cap

/-- `cap` when the next text is appended. -/
def grownCap (cap len : ℕ) : ℕ := if len + 256 ≥ cap then cap * 2 else cap

theorem Buf.Ok.grow {b : Buf} (h : b.Ok) :
    b.grow = { b with cap := grownCap b.cap b.text.length,
                      alloc := grownCap b.cap b.text.length } ∧
      b.text.length + 256 < grownCap b.cap b.text.length := by
  obtain ⟨text, cap, alloc⟩ := b
  obtain ⟨halloc, hcap, hlen⟩ := h
  dsimp only at halloc hcap hlen
  subst halloc
  unfold Buf.grow grownCap
  by_cases hfull : text.length + 256 ≥ alloc
  · simp only [hfull, if_true, true_and]
    omega
  · simp only [hfull, if_false, true_and]
    omega

/-- A text that does not fit in the space left is written again behind the doubled `cap`, where
nothing is allocated. -/
theorem safeAppend_eq {b : Buf} {s : List UInt8} (h : b.Ok) (hs : s.length < 2 ^ 31) :
    safeAppend s b =
      if s.length < grownCap b.cap b.text.length - b.text.length then
        .ok { text := b.text ++ s, cap := grownCap b.cap b.text.length,
              alloc := grownCap b.cap b.text.length }
      else .error .undefined := by
  obtain ⟨hgrow, hroom⟩ := h.grow
  rw [safeAppend, safeAppendLoop, hgrow]
  dsimp only
  rw [if_neg (by omega), if_neg (by omega)]
  by_cases hfit : s.length < grownCap b.cap b.text.length - b.text.length
  · rw [if_pos hfit, if_pos hfit]
  · have hstay : Buf.grow ⟨b.text, grownCap b.cap b.text.length * 2, grownCap b.cap b.text.length⟩ =
        ⟨b.text, grownCap b.cap b.text.length * 2, grownCap b.cap b.text.length⟩ :=
      if_neg (by dsimp only; omega)
    rw [if_neg hfit, if_neg hfit, safeAppendLoop, hstay]
    dsimp only
    rw [if_pos (by omega)]

theorem Buf.Ok.append {b : Buf} {s : List UInt8} (h : b.Ok)
    (hs : s.length < grownCap b.cap b.text.length - b.text.length) :
    Buf.Ok { text := b.text ++ s, cap := grownCap b.cap b.text.length,
             alloc := grownCap b.cap b.text.length } := by
  have hroom := h.grow.2
  refine ⟨rfl, ?_, ?_⟩
  · dsimp only
    omega
  · dsimp only
    rw [List.length_append]
    omega

/-- Every text, of the given lengths, fits in the space that is left when it is appended. -/
def Room : ℕ → ℕ → List ℕ → Prop
  | _, _, [] => True
  | cap, len, n :: ns => n < grownCap cap len - len ∧ Room (grownCap cap len) (len + n) ns

/-- The header is built if and only if there is room for its pieces. -/
theorem foldlM_safeAppend {b : Buf} {ss : List (List UInt8)} (h : b.Ok)
    (hs : ∀ s ∈ ss, s.length < 2 ^ 31) :
    (Room b.cap b.text.length (ss.map List.length) →
        ∃ b', ss.foldlM (fun b s => safeAppend s b) b = .ok b' ∧ b'.text = b.text ++ ss.flatten) ∧
      (∀ b', ss.foldlM (fun b s => safeAppend s b) b = .ok b' →
        Room b.cap b.text.length (ss.map List.length)) := by
  induction ss generalizing b with
  | nil => exact ⟨fun _ => ⟨b, rfl, by simp⟩, fun _ _ => trivial⟩
  | cons s ss ih =>
    rw [List.foldlM_cons, safeAppend_eq h (hs s List.mem_cons_self)]
    simp only [List.map_cons, Room]
    by_cases hfit : s.length < grownCap b.cap b.text.length - b.text.length
    · rw [if_pos hfit, ok_bind]
      have ih := ih (h.append hfit) fun s hs' => hs s (List.mem_cons_of_mem _ hs')
      simp only [List.length_append] at ih
      refine ⟨fun hroom => ?_, fun b' hb' => ⟨hfit, ih.2 b' hb'⟩⟩
      obtain ⟨b', hb', htext⟩ := ih.1 hroom.2
      refine ⟨b', hb', ?_⟩
      rw [htext, List.flatten_cons, List.append_assoc]
    · rw [if_neg hfit]
      exact ⟨fun hroom => absurd hroom.1 hfit, nofun⟩

/-- Names of at most 223 bytes always leave room: no text has more than 256 bytes then. -/
theorem room_of_le (ns : List ℕ) {cap len : ℕ} (hcap : 256 ≤ cap) (hlen : len < cap)
    (hns : ∀ n ∈ ns, n ≤ 256) : Room cap len ns := by
  induction ns generalizing cap len with
  | nil => trivial
  | cons n ns ih =>
    have hn := hns n List.mem_cons_self
    have hroom : len + 256 < grownCap cap len := by
      unfold grownCap
      split <;> omega
    exact ⟨by omega, ih (by omega) (by omega) fun n hn => hns n (List.mem_cons_of_mem _ hn)⟩

/-- The entries under which tensors are filed, from an offset on. -/
def filed : ℕ → List Tensor → List Entry
  | _, [] => []
  | off, t :: ts =>
    { name := t.name, dtype := t.dtype, shape := t.shape, offStart := off,
      offEnd := off + t.data.length } :: filed (off + t.data.length) ts

/-- The byte buffer of the file. -/
def dataOf (ts : List Tensor) : List UInt8 := ts.flatMap Tensor.data

theorem foldl_mul_mod (ds : List ℕ) (a : ℕ) :
    ds.foldl (fun total d => total * d % 2 ^ 64) a % 2 ^ 64 = a * ds.prod % 2 ^ 64 := by
  induction ds generalizing a with
  | nil => simp
  | cons d ds ih => rw [List.foldl_cons, ih, List.prod_cons, Nat.mod_mul_mod, mul_assoc]

theorem writtenBytes_eq (t : Tensor) : writtenBytes t.shape t.dtype = t.data.length := by
  rw [writtenBytes, Nat.mul_mod, foldl_mul_mod, ← Nat.mul_mod, one_mul, ← t.length_data,
    Nat.mod_eq_of_lt t.length_lt]

theorem writeTensor_eq (w : Writer) {t : Tensor} (h : t.shape.length ≤ 8) :
    writeTensor w t = .ok
      { entries := w.entries ++ filed w.data.length [t], data := w.data ++ t.data } := by
  rw [writeTensor, List.take_of_length_le h, writtenBytes_eq, if_pos le_rfl, List.take_length]
  rfl

theorem filed_append (off : ℕ) (ts us : List Tensor) :
    filed off (ts ++ us) = filed off ts ++ filed (off + (dataOf ts).length) us := by
  induction ts generalizing off with
  | nil => rfl
  | cons t ts ih =>
    rw [List.cons_append, filed, ih, filed, List.cons_append, dataOf, dataOf, List.flatMap_cons,
      List.length_append, Nat.add_assoc]

theorem foldlM_writeTensor (w : Writer) {ts : List Tensor} (h : ∀ t ∈ ts, t.shape.length ≤ 8) :
    ts.foldlM writeTensor w = .ok
      { entries := w.entries ++ filed w.data.length ts, data := w.data ++ dataOf ts } := by
  induction ts generalizing w with
  | nil => simp [filed, dataOf, pure, Except.pure]
  | cons t ts ih =>
    rw [List.foldlM_cons, writeTensor_eq w (h t List.mem_cons_self), ok_bind,
      ih _ fun t ht => h t (List.mem_cons_of_mem _ ht)]
    have hfiled := filed_append w.data.length [t] ts
    rw [List.singleton_append] at hfiled
    rw [hfiled]
    simp [dataOf]

/-- The zero bytes that `save` puts after the header. -/
def padding (ts : List Tensor) : ℕ := (8 - (headerText (filed 0 ts)).length % 8) % 8

def fileOf (ts : List Tensor) : List UInt8 :=
  leBytes 8 (headerText (filed 0 ts)).length ++
    (headerText (filed 0 ts) ++ (List.replicate (padding ts) 0 ++ dataOf ts))

theorem length_filed (off : ℕ) (ts : List Tensor) : (filed off ts).length = ts.length := by
  induction ts generalizing off with
  | nil => rfl
  | cons t ts ih => rw [filed, List.length_cons, ih, List.length_cons]

theorem map_name_filed (off : ℕ) (ts : List Tensor) :
    (filed off ts).map Entry.name = ts.map Tensor.name := by
  induction ts generalizing off with
  | nil => rfl
  | cons t ts ih => rw [filed, List.map_cons, ih, List.map_cons]

theorem mem_filed {off : ℕ} {ts : List Tensor} {e : Entry} (h : e ∈ filed off ts) :
    (∃ t ∈ ts, e.name = t.name ∧ e.shape = t.shape) ∧ e.offStart ≤ e.offEnd ∧
      e.offEnd ≤ off + (dataOf ts).length := by
  induction ts generalizing off with
  | nil => cases h
  | cons t ts ih =>
    have hlen : (dataOf (t :: ts)).length = t.data.length + (dataOf ts).length := by
      simp [dataOf]
    rcases List.mem_cons.mp h with rfl | h
    · exact ⟨⟨t, List.mem_cons_self, rfl, rfl⟩, by simp, by dsimp only; omega⟩
    · obtain ⟨⟨u, hu, hname⟩, hle, hend⟩ := ih h
      exact ⟨⟨u, List.mem_cons_of_mem _ hu, hname⟩, hle, by omega⟩

/-! ### The room for the header -/

theorem length_dtypeToStr_le (dt : DType) : (dtypeToStr dt).length ≤ 9 := by
  cases dt with
  | other c h =>
    change (ascii "F32").length ≤ 9
    decide
  | _ => decide

theorem length_shapePieces_le {ds : List ℕ} (hd : ∀ d ∈ ds, d < 2 ^ 64) :
    ∀ s ∈ shapePieces ds, s.length ≤ 20 := by
  intro s hs
  rcases ds with _ | ⟨d, ds⟩
  · cases hs
  rcases List.mem_cons.mp hs with rfl | hs
  · exact length_decimal_le (hd d List.mem_cons_self)
  obtain ⟨x, hx, hs⟩ := List.mem_flatMap.mp hs
  rcases List.mem_pair.mp hs with rfl | rfl
  · decide
  · exact length_decimal_le (hd x (List.mem_cons_of_mem _ hx))

theorem length_entryPieces_le {e : Entry} (hshape : ∀ d ∈ e.shape, d < 2 ^ 64)
    (hstart : e.offStart < 2 ^ 64) (hend : e.offEnd < 2 ^ 64) :
    ∀ s ∈ entryPieces e, s.length ≤ max (e.name.length + 33) 61 := by
  intro s hs
  rcases List.mem_cons.mp hs with rfl | hs
  · have hdt := length_dtypeToStr_le e.dtype
    simp only [ascii, List.length_append, List.length_map]
    simp
    omega
  rcases List.mem_append.mp hs with hs | hs
  · have := length_shapePieces_le hshape s hs
    omega
  · have hs' := length_decimal_le hstart
    have he' := length_decimal_le hend
    rw [List.mem_singleton.mp hs]
    simp only [ascii, List.length_append, List.length_map]
    simp
    omega

theorem mem_headerPieces {es : List Entry} {s : List UInt8} (h : s ∈ headerPieces es) :
    s.length = 1 ∨ ∃ e ∈ es, s ∈ entryPieces e := by
  rcases es with _ | ⟨e, es⟩
  · rcases List.mem_pair.mp h with rfl | rfl <;> exact Or.inl rfl
  simp only [headerPieces, List.mem_append, List.mem_singleton, List.mem_flatMap] at h
  rcases h with ((rfl | h) | ⟨e', he', h⟩) | rfl
  · exact Or.inl rfl
  · exact Or.inr ⟨e, List.mem_cons_self, h⟩
  · rcases List.mem_cons.mp h with rfl | h
    · exact Or.inl rfl
    · exact Or.inr ⟨e', List.mem_cons_of_mem _ he', h⟩
  · exact Or.inl rfl

theorem length_headerPieces_le {ts : List Tensor} {n : ℕ} (hn : ∀ t ∈ ts, t.name.length ≤ n)
    (hdata : (dataOf ts).length < 2 ^ 64) :
    ∀ s ∈ headerPieces (filed 0 ts), s.length ≤ max (n + 33) 61 := by
  intro s hs
  rcases mem_headerPieces hs with h1 | ⟨e, he, hs⟩
  · omega
  · obtain ⟨⟨t, ht, hname, hshape⟩, hle, hend⟩ := mem_filed he
    have hle := length_entryPieces_le (hshape ▸ t.shape_lt) (by omega) (by omega) s hs
    have hnt := hn t ht
    rw [hname] at hle
    omega

def HeaderRoom (ts : List Tensor) : Prop :=
  Room (256 + ts.length * 128) 0 ((headerPieces (filed 0 ts)).map List.length)

/-- With names of at most 223 bytes there is always room. -/
theorem headerRoom_of_short {ts : List Tensor} (hn : ∀ t ∈ ts, t.name.length ≤ 223)
    (hdata : (dataOf ts).length < 2 ^ 64) : HeaderRoom ts := by
  refine room_of_le _ (by omega) (by omega) ?_
  intro n hn'
  obtain ⟨s, hs, rfl⟩ := List.mem_map.mp hn'
  exact length_headerPieces_le hn hdata s hs

theorem save_iff {ts : List Tensor} (hn : ∀ t ∈ ts, t.name.length ≤ 255)
    (hdata : (dataOf ts).length < 2 ^ 64) (file : List UInt8) :
    save { entries := filed 0 ts, data := dataOf ts } = .ok file ↔
      HeaderRoom ts ∧ file = fileOf ts := by
  have hsmall : ∀ s ∈ headerPieces (filed 0 ts), s.length < 2 ^ 31 := by
    intro s hs
    have := length_headerPieces_le hn hdata s hs
    omega
  have hbuf : Buf.Ok ⟨[], 256 + (filed 0 ts).length * 128, 256 + (filed 0 ts).length * 128⟩ :=
    ⟨rfl, by dsimp only; omega, by simp⟩
  obtain ⟨hok, hroom⟩ := foldlM_safeAppend hbuf hsmall
  have hfile {b : Buf} (hb : b.text = [] ++ (headerPieces (filed 0 ts)).flatten) :
      leBytes 8 b.text.length ++ b.text ++
        List.replicate ((8 - b.text.length % 8) % 8) 0 ++ dataOf ts = fileOf ts := by
    rw [hb, List.nil_append, flatten_headerPieces, fileOf, padding]
    simp only [List.append_assoc]
  rw [HeaderRoom, ← length_filed 0 ts]
  constructor
  · intro h
    obtain ⟨b, hb, h⟩ := exists_of_bind h
    have hr := hroom b hb
    obtain ⟨b', hb', htext⟩ := hok hr
    cases hb.symm.trans hb'
    cases h
    exact ⟨hr, hfile htext⟩
  · rintro ⟨hr, rfl⟩
    obtain ⟨b, hb, htext⟩ := hok hr
    rw [save, hb, ok_bind, ← hfile htext]

/-! ## The round trip -/

theorem findEntry_reread (longMax : ℕ) (buf : List UInt8) {us vs : List Tensor} {t : Tensor}
    (hnodup : ((us ++ t :: vs).map Tensor.name).Nodup) :
    findEntry
        { buf := buf, entries := (filed 0 (us ++ t :: vs)).map (Entry.reread longMax) } t.name =
      some (Entry.reread longMax
        { name := t.name, dtype := t.dtype, shape := t.shape, offStart := (dataOf us).length,
          offEnd := (dataOf us).length + t.data.length }) := by
  have hnone : ((filed 0 us).map (Entry.reread longMax)).find? (·.name = t.name) = none := by
    rw [List.find?_eq_none]
    intro e he hname
    obtain ⟨e₀, he₀, rfl⟩ := List.mem_map.mp he
    have hmem : t.name ∈ us.map Tensor.name := by
      rw [← map_name_filed 0 us, ← of_decide_eq_true hname]
      exact (List.mem_map_of_mem he₀ : e₀.name ∈ _)
    rw [List.map_append, List.map_cons] at hnodup
    exact (List.nodup_append.mp hnodup).2.2 _ hmem _ List.mem_cons_self rfl
  rw [findEntry, filed_append, List.map_append, List.find?_append, hnone, Option.none_or, filed,
    List.map_cons, Nat.zero_add]
  exact List.find?_cons_of_pos (decide_eq_true rfl)

theorem length_fileOf (ts : List Tensor) :
    (fileOf ts).length =
      8 + (headerText (filed 0 ts)).length + padding ts + (dataOf ts).length := by
  simp only [fileOf, List.length_append, length_leBytes, List.length_replicate]
  omega

theorem clamp_of_le {longMax n : ℕ} (h : n ≤ longMax) : clamp longMax n = n := min_eq_left h

/-- What `read_tensor` returns for a tensor of a file that was saved. The byte buffer is taken to
start at the padding. -/
theorem readTensor_fileOf {longMax : ℕ} {us vs : List Tensor} {t : Tensor}
    (hnodup : ((us ++ t :: vs).map Tensor.name).Nodup)
    (hlen : (fileOf (us ++ t :: vs)).length ≤ longMax) (hmax : longMax < 2 ^ 63) :
    readTensor
        { buf := fileOf (us ++ t :: vs),
          entries := (filed 0 (us ++ t :: vs)).map (Entry.reread longMax) } t.name =
      .ok (dtypeFromStr (dtypeToStr t.dtype), t.shape.map (clamp longMax),
        ((List.replicate (padding (us ++ t :: vs)) 0 ++ dataOf (us ++ t :: vs)).drop
          (dataOf us).length).take t.data.length) := by
  set ts := us ++ t :: vs with hts
  have hfile := length_fileOf ts
  have hdata : (dataOf ts).length = (dataOf us).length + t.data.length + (dataOf vs).length := by
    simp [hts, dataOf]
    omega
  have hhdr : headerLen (fileOf ts) = (headerText (filed 0 ts)).length :=
    headerLen_leBytes _ (by omega)
  have hdrop (s : ℕ) : (fileOf ts).drop (8 + (headerText (filed 0 ts)).length + s) =
      (List.replicate (padding ts) 0 ++ dataOf ts).drop s := by
    rw [← List.drop_drop, ← List.drop_drop, fileOf,
      List.drop_left' (length_leBytes 8 _), List.drop_left' rfl]
  rw [readTensor, hts, findEntry_reread longMax _ hnodup, ← hts]
  simp only [Entry.reread, hhdr]
  rw [clamp_of_le (show (dataOf us).length ≤ longMax by omega),
    clamp_of_le (show (dataOf us).length + t.data.length ≤ longMax by omega)]
  have hbase : (8 + (headerText (filed 0 ts)).length + (dataOf us).length) % 2 ^ 64 =
      8 + (headerText (filed 0 ts)).length + (dataOf us).length := Nat.mod_eq_of_lt (by omega)
  have hbytes : ((dataOf us).length + t.data.length + 2 ^ 64 - (dataOf us).length) % 2 ^ 64 =
      t.data.length := by omega
  rw [hbase, hbytes, if_neg (by omega), if_neg (by omega), hdrop]

theorem of_readTensor {h : Reader} {name : List UInt8} {dt : DType} {shape : List ℕ}
    {data : List UInt8} (hok : readTensor h name = .ok (dt, shape, data)) :
    ∃ e ∈ h.entries, e.name = name ∧ e.dtype = dt ∧ e.shape = shape := by
  unfold readTensor at hok
  split at hok
  · cases hok
  · rename_i e he
    simp only at hok
    split_ifs at hok
    cases hok
    exact ⟨e, List.mem_of_find?_eq_some he, of_decide_eq_true (List.find?_some he :), rfl, rfl⟩

/-- Reading every tensor at its offset is reading the byte buffer from its start. -/
theorem segments_iff (r : List UInt8) (ts : List Tensor) :
    (∀ us t vs, ts = us ++ t :: vs → (r.drop (dataOf us).length).take t.data.length = t.data) ↔
      r.take (dataOf ts).length = dataOf ts := by
  constructor
  · intro h
    have hsplit : ∀ us vs, ts = us ++ vs → r.take (dataOf us).length = dataOf us := by
      intro us
      induction us using List.reverseRecOn with
      | nil => simp [dataOf]
      | append_singleton us t ih =>
        intro vs hts
        rw [List.append_assoc, List.singleton_append] at hts
        have hdata : dataOf (us ++ [t]) = dataOf us ++ t.data := by simp [dataOf]
        rw [hdata, List.length_append, List.take_add, ih _ hts, h us t vs hts]
    exact hsplit ts [] (List.append_nil ts).symm
  · rintro h us t vs rfl
    have hdata : dataOf (us ++ t :: vs) = dataOf us ++ (t.data ++ dataOf vs) := by simp [dataOf]
    have hlen : (dataOf us).length + t.data.length ≤ (dataOf (us ++ t :: vs)).length := by
      simp [hdata]
    calc (r.drop (dataOf us).length).take t.data.length
        = ((r.take (dataOf (us ++ t :: vs)).length).drop (dataOf us).length).take
            t.data.length := by
          rw [List.drop_take, List.take_take, min_eq_left (by omega)]
      _ = t.data := by
          rw [h, hdata, List.drop_left, List.take_left]

/-- Shifting a byte string behind zeros keeps its bytes only where they are all zero. -/
theorem take_replicate_append_iff (n : ℕ) (d : List UInt8) :
    (List.replicate n 0 ++ d).take d.length = d ↔ n = 0 ∨ ∀ b ∈ d, b = 0 := by
  constructor
  · intro h
    rcases Nat.eq_zero_or_pos n with hn | hn
    · exact Or.inl hn
    right
    -- each byte is one of the padding or the byte `n` places before it
    have hzero : ∀ i, ∀ hi : i < d.length, d[i] = 0 := by
      intro i
      induction i using Nat.strong_induction_on with
      | _ i ih =>
        intro hi
        have hget : d[i]? = (List.replicate n 0 ++ d)[i]? := by
          conv_lhs => rw [← h]
          rw [List.getElem?_take_of_lt hi]
        by_cases hin : i < n
        · rw [List.getElem?_append_left (by simpa using hin), List.getElem?_replicate, if_pos hin,
            List.getElem?_eq_getElem hi] at hget
          exact Option.some.inj hget
        · rw [List.getElem?_append_right (by simpa using hin), List.length_replicate,
            List.getElem?_eq_getElem hi, List.getElem?_eq_getElem (by omega)] at hget
          rw [Option.some.inj hget]
          exact ih (i - n) (by omega) (by omega)
    intro b hb
    obtain ⟨i, hi, rfl⟩ := List.getElem_of_mem hb
    exact hzero i hi
  · rintro (rfl | h)
    · simp
    · rw [List.eq_replicate_of_mem h, ← List.replicate_add, List.length_replicate,
        List.take_replicate, min_eq_left (Nat.le_add_left _ _)]

/-- Saving the tensors, opening the file and reading each name gives them back. -/
def RoundTrip (longMax : ℕ) (ts : List Tensor) : Prop :=
  ∃ w file h, ts.foldlM writeTensor {} = .ok w ∧ save w = .ok file ∧
    safetensorsOpen longMax file = .ok h ∧
    ∀ t ∈ ts, readTensor h t.name = .ok (t.dtype, t.shape, t.data)

/-- The tensors that can be restored from the file they are saved in. -/
structure Restorable (longMax : ℕ) (ts : List Tensor) : Prop where
  /-- A name fits the buffer of `parse_string`. -/
  short : ∀ t ∈ ts, t.name.length ≤ 255
  ne_metadata : ∀ t ∈ ts, t.name ≠ ascii "__metadata__"
  dtype : ∀ t ∈ ts, ∀ c h, t.dtype ≠ .other c h
  ndim : ∀ t ∈ ts, t.shape.length ≤ 8
  extents : ∀ t ∈ ts, ∀ d ∈ t.shape, d ≤ longMax
  /-- No text is longer than the space that `safe_append` has for it. -/
  room : HeaderRoom ts
  size : (fileOf ts).length ≤ longMax
  /-- There is no padding, or nothing but zeros after it. -/
  aligned : 8 ∣ (headerText (filed 0 ts)).length ∨ ∀ t ∈ ts, ∀ b ∈ t.data, b = 0

theorem padding_eq_zero_iff (ts : List Tensor) :
    padding ts = 0 ↔ 8 ∣ (headerText (filed 0 ts)).length := by
  unfold padding
  omega

theorem aligned_iff (ts : List Tensor) :
    (8 ∣ (headerText (filed 0 ts)).length ∨ ∀ t ∈ ts, ∀ b ∈ t.data, b = 0) ↔
      (List.replicate (padding ts) 0 ++ dataOf ts).take (dataOf ts).length = dataOf ts := by
  rw [take_replicate_append_iff, padding_eq_zero_iff]
  refine or_congr_right ⟨fun h b hb => ?_, fun h t ht b hb => ?_⟩
  · obtain ⟨t, ht, hb⟩ := List.mem_flatMap.mp hb
    exact h t ht b hb
  · exact h b (List.mem_flatMap.mpr ⟨t, ht, hb⟩)

theorem dtypeFromStr_dtypeToStr {dt : DType} (h : ∀ c h, dt ≠ .other c h) :
    dtypeFromStr (dtypeToStr dt) = dt := by
  cases dt with
  | other c hc => exact absurd rfl (h c hc)
  | _ => decide

theorem printable_filed {ts : List Tensor} (hplain : ∀ t ∈ ts, Plain t.name)
    (hshort : ∀ t ∈ ts, t.name.length ≤ 255) (hmeta : ∀ t ∈ ts, t.name ≠ ascii "__metadata__")
    (hndim : ∀ t ∈ ts, t.shape.length ≤ 8) (hdata : (dataOf ts).length < 2 ^ 64) :
    ∀ e ∈ filed 0 ts, e.Printable := by
  intro e he
  obtain ⟨⟨t, ht, hname, hshape⟩, hle, hend⟩ := mem_filed he
  exact
    { plain := hname ▸ hplain t ht
      cstr := hname ▸ t.name_cstr
      short := hname ▸ hshort t ht
      ne_metadata := hname ▸ hmeta t ht
      shape_lt := hshape ▸ t.shape_lt
      ndim := hshape ▸ hndim t ht
      start_lt := by omega
      end_lt := by omega }

theorem safetensorsOpen_fileOf {longMax : ℕ} {ts : List Tensor} (hmax : longMax < 2 ^ 63)
    (hprint : ∀ e ∈ filed 0 ts, e.Printable) (hsize : (fileOf ts).length ≤ longMax) :
    safetensorsOpen longMax (fileOf ts) =
      .ok { buf := fileOf ts, entries := (filed 0 ts).map (Entry.reread longMax) } :=
  safetensorsOpen_headerText hprint rfl hsize hmax

theorem length_le_of_open {longMax : ℕ} {file : List UInt8} {h : Reader}
    (hok : safetensorsOpen longMax file = .ok h) : file.length ≤ longMax := by
  unfold safetensorsOpen at hok
  split at hok
  · cases hok
  · omega

theorem data_le_of_save {w : Writer} {file : List UInt8} (h : save w = .ok file) :
    w.data.length ≤ file.length := by
  obtain ⟨b, -, h⟩ := exists_of_bind h
  cases h
  simp only [List.length_append]
  omega

/-- The bytes of every tensor are found where the reader looks for them. -/
theorem readTensor_fileOf_iff {longMax : ℕ} {ts : List Tensor} (hmax : longMax < 2 ^ 63)
    (hnodup : (ts.map Tensor.name).Nodup) (hsize : (fileOf ts).length ≤ longMax)
    (hdtype : ∀ t ∈ ts, ∀ c h, t.dtype ≠ .other c h) :
    (∀ t ∈ ts, readTensor
        { buf := fileOf ts, entries := (filed 0 ts).map (Entry.reread longMax) } t.name =
          .ok (t.dtype, t.shape, t.data)) ↔
      (∀ t ∈ ts, ∀ d ∈ t.shape, d ≤ longMax) ∧
        (8 ∣ (headerText (filed 0 ts)).length ∨ ∀ t ∈ ts, ∀ b ∈ t.data, b = 0) := by
  have hshape (t : Tensor) : t.shape.map (clamp longMax) = t.shape ↔ ∀ d ∈ t.shape, d ≤ longMax := by
    nth_rewrite 2 [← List.map_id t.shape]
    rw [List.map_inj_left]
    exact forall₂_congr fun d _ => min_eq_left_iff
  have hread (us : List Tensor) (t : Tensor) (vs : List Tensor) (hts : ts = us ++ t :: vs) :
      readTensor
          { buf := fileOf ts, entries := (filed 0 ts).map (Entry.reread longMax) } t.name =
            .ok (t.dtype, t.shape, t.data) ↔
        (∀ d ∈ t.shape, d ≤ longMax) ∧
          ((List.replicate (padding ts) 0 ++ dataOf ts).drop (dataOf us).length).take
            t.data.length = t.data := by
    subst hts
    rw [readTensor_fileOf hnodup hsize hmax, dtypeFromStr_dtypeToStr (hdtype t (by simp)),
      Except.ok.injEq, Prod.mk.injEq, Prod.mk.injEq, hshape]
    exact and_iff_right rfl
  rw [aligned_iff, ← segments_iff]
  constructor
  · intro h
    refine ⟨fun t ht => ?_, fun us t vs hts => ?_⟩
    · obtain ⟨us, vs, hts⟩ := List.append_of_mem ht
      exact ((hread us t vs hts).mp (h t ht)).1
    · exact ((hread us t vs hts).mp (h t (by simp [hts]))).2
  · rintro ⟨hext, hseg⟩ t ht
    obtain ⟨us, vs, hts⟩ := List.append_of_mem ht
    exact (hread us t vs hts).mpr ⟨hext t ht, hseg us t vs hts⟩

theorem restorable_of_roundTrip {longMax : ℕ} (hmax : longMax < 2 ^ 63) {ts : List Tensor}
    (hnodup : (ts.map Tensor.name).Nodup) (hplain : ∀ t ∈ ts, Plain t.name)
    (hrt : RoundTrip longMax ts) : Restorable longMax ts := by
  obtain ⟨w, file, h, hw, hsave, hopen, hread⟩ := hrt
  have hentry : ∀ t ∈ ts, ∃ e : Entry, e.Readable ∧ e.name = t.name ∧ e.dtype = t.dtype ∧
      e.shape = t.shape := by
    intro t ht
    obtain ⟨e, he, hfields⟩ := of_readTensor (hread t ht)
    exact ⟨e, safetensorsOpen_readable hopen e he, hfields⟩
  have hshort : ∀ t ∈ ts, t.name.length ≤ 255 := by
    intro t ht
    obtain ⟨e, he, hname, -⟩ := hentry t ht
    exact hname ▸ he.short
  have hmeta : ∀ t ∈ ts, t.name ≠ ascii "__metadata__" := by
    intro t ht
    obtain ⟨e, he, hname, -⟩ := hentry t ht
    exact hname ▸ he.ne_metadata
  have hdtype : ∀ t ∈ ts, ∀ c h, t.dtype ≠ .other c h := by
    intro t ht
    obtain ⟨e, he, -, hdt, -⟩ := hentry t ht
    exact hdt ▸ he.dtype
  have hndim : ∀ t ∈ ts, t.shape.length ≤ 8 := by
    intro t ht
    obtain ⟨e, he, -, -, hshape⟩ := hentry t ht
    exact hshape ▸ he.ndim
  rw [foldlM_writeTensor _ hndim] at hw
  cases hw
  have hlen := length_le_of_open hopen
  have hdata : (dataOf ts).length < 2 ^ 64 := by
    have := data_le_of_save hsave
    dsimp only [List.nil_append] at this
    omega
  obtain ⟨hroom, rfl⟩ := (save_iff hshort hdata file).mp hsave
  rw [safetensorsOpen_fileOf hmax (printable_filed hplain hshort hmeta hndim hdata) hlen] at hopen
  cases hopen
  obtain ⟨hext, haligned⟩ := (readTensor_fileOf_iff hmax hnodup hlen hdtype).mp hread
  exact ⟨hshort, hmeta, hdtype, hndim, hext, hroom, hlen, haligned⟩

theorem roundTrip_of_restorable {longMax : ℕ} (hmax : longMax < 2 ^ 63) {ts : List Tensor}
    (hnodup : (ts.map Tensor.name).Nodup) (hplain : ∀ t ∈ ts, Plain t.name)
    (hts : Restorable longMax ts) : RoundTrip longMax ts := by
  obtain ⟨hshort, hmeta, hdtype, hndim, hext, hroom, hsize, haligned⟩ := hts
  have hdata : (dataOf ts).length < 2 ^ 64 := by
    have := length_fileOf ts
    omega
  exact ⟨_, fileOf ts, _, foldlM_writeTensor _ hndim, (save_iff hshort hdata _).mpr ⟨hroom, rfl⟩,
    safetensorsOpen_fileOf hmax (printable_filed hplain hshort hmeta hndim hdata) hsize,
    (readTensor_fileOf_iff hmax hnodup hsize hdtype).mpr ⟨hext, haligned⟩⟩

/-- **The round trip.** Tensors with distinct, plain names are restored from the file they are saved
in exactly when they are restorable: in particular, the header has to end on a multiple of eight
bytes, unless all their bytes are zero. -/
theorem roundTrip_iff {longMax : ℕ} (hmax : longMax < 2 ^ 63) {ts : List Tensor}
    (hnodup : (ts.map Tensor.name).Nodup) (hplain : ∀ t ∈ ts, Plain t.name) :
    RoundTrip longMax ts ↔ Restorable longMax ts :=
  ⟨restorable_of_roundTrip hmax hnodup hplain, roundTrip_of_restorable hmax hnodup hplain⟩

/-- Four bytes under a name of four letters. -/
def bias : Tensor :=
  ⟨ascii "bias", .U8, [4], [1, 2, 3, 4], by decide, by decide, by decide, by decide⟩

/-- Six bytes under a name that leaves no padding behind `bias`. -/
def weights : Tensor :=
  ⟨ascii "w1", .U8, [2, 3], [5, 6, 7, 8, 9, 10], by decide, by decide, by decide, by decide⟩

/-- One byte under a name of one letter, which leaves three bytes of padding. -/
def one : Tensor := ⟨ascii "a", .U8, [1], [1], by decide, by decide, by decide, by decide⟩

theorem roundTrip_layer : RoundTrip (2 ^ 63 - 1) [bias, weights] :=
  (roundTrip_iff (by decide) (by decide) (by decide)).mpr
    { short := by decide
      ne_metadata := by decide
      dtype := by simp [bias, weights]
      ndim := by decide
      extents := by decide
      room := headerRoom_of_short (by decide) (by decide)
      size := by decide +kernel
      aligned := Or.inl (by decide +kernel) }

/-- The byte 1 is read back as a byte of the padding. -/
theorem not_roundTrip_one : ¬ RoundTrip (2 ^ 63 - 1) [one] := by
  intro h
  obtain hpad | hzero :=
    (restorable_of_roundTrip (by decide) (by decide) (by decide) h).aligned
  · exact absurd hpad (by decide +kernel)
  · exact absurd (hzero one List.mem_cons_self 1 List.mem_cons_self) (by decide)

end SneppxAlg.Safetensors
