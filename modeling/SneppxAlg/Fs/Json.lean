import Mathlib

/-!
# `json.c`: the JSON parser

A recursive-descent parser over the bytes of a C string. The position is modelled by the text that
is left. Nested values are parsed with one level less, down from the 129 levels that
`SNEPPX_JSON_MAX_DEPTH` allows, and the loops over the members of a container are given more steps
than there are bytes left.

Allocation failures are left out.
-/

namespace SneppxAlg.Json

/-! ## Bytes -/

/-- `isspace` in the C locale. -/
def isspace (b : UInt8) : Bool := b == 0x20 || (0x09 ≤ b && b ≤ 0x0D)

/-- `isdigit`. -/
def isdigit (b : UInt8) : Bool := 0x30 ≤ b && b ≤ 0x39

/-- `json_hexval`; `none` stands for -1. -/
def jsonHexval (c : UInt8) : Option ℕ :=
  if 0x30 ≤ c ∧ c ≤ 0x39 then some (c.toNat - 0x30)
  else if 0x61 ≤ c ∧ c ≤ 0x66 then some (c.toNat - 0x61 + 10)
  else if 0x41 ≤ c ∧ c ≤ 0x46 then some (c.toNat - 0x41 + 10)
  else none

/-- What is left after the next byte, if it is `c`. -/
def expect (c : UInt8) : List UInt8 → Option (List UInt8)
  | [] => none
  | b :: t => if b = c then some t else none

/-! ## Values -/

/-- `SNEPPX_JsonValue`. A number is kept as the bytes that `strtod` converts. -/
inductive JsonValue
  | null
  | bool (value : Bool)
  | number (lexeme : List UInt8) (isInteger : Bool)
  | string (value : List UInt8)
  | array (items : List JsonValue)
  | object (pairs : List (List UInt8 × JsonValue))

/-- What a parsing function returns: the value and the text that is left. -/
abbrev Parsed (α : Type) := α × List UInt8

/-- `skip_whitespace`. -/
def skipWhitespace (t : List UInt8) : List UInt8 := t.dropWhile isspace

/-! ## Strings -/

/-- The byte that a simple escape stands for; other bytes stand for themselves. -/
def escaped (c : UInt8) : UInt8 :=
  if c = 0x6E then 0x0A
  else if c = 0x74 then 0x09
  else if c = 0x72 then 0x0D
  else if c = 0x62 then 0x08
  else if c = 0x66 then 0x0C
  else c

/-- The encoding of a `\u` escape: two surrogates are not joined. -/
def encodeUnit (code : ℕ) : List UInt8 :=
  if code < 0x80 then [.ofNat code]
  else if code < 0x800 then [.ofNat (0xC0 + code / 64), .ofNat (0x80 + code % 64)]
  else [.ofNat (0xE0 + code / 4096), .ofNat (0x80 + code / 64 % 64), .ofNat (0x80 + code % 64)]

/-- The code of four hexadecimal digits. -/
def hexCode (a b c d : UInt8) : Option ℕ := do
  let high := (← jsonHexval a) * 16 + (← jsonHexval b)
  some ((high * 16 + (← jsonHexval c)) * 16 + (← jsonHexval d))

/-- `unescape_string`. A `\u` without four hexadecimal digits ends the string. -/
def unescapeString : List UInt8 → List UInt8
  | [] => []
  | [b] => [b]
  | b :: c :: rest =>
    if b = 0x5C then
      if c = 0x75 then
        match rest with
        | h₁ :: h₂ :: h₃ :: h₄ :: rest =>
          match hexCode h₁ h₂ h₃ h₄ with
          | some code => encodeUnit code ++ unescapeString rest
          | none => []
        | _ => []
      else escaped c :: unescapeString rest
    else b :: unescapeString (c :: rest)

/-- The loop of `parse_string`: the bytes up to the closing quote, and what follows it. -/
def scanString : List UInt8 → Option (List UInt8 × List UInt8)
  | [] => none
  | b :: rest =>
    if b = 0x22 then some ([], rest)
    else if b = 0x5C then
      match rest with
      | [] => none
      | c :: rest => (scanString rest).map fun (raw, t) => (b :: c :: raw, t)
    else (scanString rest).map fun (raw, t) => (b :: raw, t)

/-- `parse_string`, after the opening quote. -/
def parseString (t : List UInt8) : Option (Parsed JsonValue) :=
  (scanString t).map fun (raw, t) => (.string (unescapeString raw), t)

/-! ## Numbers -/

/-- The parts of a number that `parse_number` scans, and what follows. -/
structure Scan where
  minus : List UInt8
  int : List UInt8
  frac : Option (List UInt8)
  exp : Option (UInt8 × List UInt8 × List UInt8)
  rest : List UInt8

/-- An optional byte: taken if it is one of the given ones. -/
def optByte (cs : List UInt8) : List UInt8 → List UInt8 × List UInt8
  | [] => ([], [])
  | b :: t => if b ∈ cs then ([b], t) else ([], b :: t)

/-- The optional fraction. -/
def scanFrac : List UInt8 → Option (List UInt8) × List UInt8
  | [] => (none, [])
  | b :: t =>
    if b = 0x2E then (some (t.takeWhile isdigit), t.dropWhile isdigit) else (none, b :: t)

/-- The optional exponent: the letter, the sign and the digits. -/
def scanExp : List UInt8 → Option (UInt8 × List UInt8 × List UInt8) × List UInt8
  | [] => (none, [])
  | b :: t =>
    if b = 0x65 ∨ b = 0x45 then
      let (sign, t) := optByte [0x2B, 0x2D] t
      (some (b, sign, t.takeWhile isdigit), t.dropWhile isdigit)
    else (none, b :: t)

/-- The scan of `parse_number`. -/
def scanNumber (t : List UInt8) : Scan :=
  let (minus, t) := optByte [0x2D] t
  let (frac, t') := scanFrac (t.dropWhile isdigit)
  let (exp, t'') := scanExp t'
  ⟨minus, t.takeWhile isdigit, frac, exp, t''⟩

/-- Lower case for ASCII letters. -/
def lower (b : UInt8) : UInt8 := if 0x41 ≤ b ∧ b ≤ 0x5A then b + 0x20 else b

/-- What follows a word, whatever its case. -/
def afterWord (word t : List UInt8) : Option (List UInt8) :=
  if (t.take word.length).map lower = word then some (t.drop word.length) else none

/-- What follows the exponent of a floating-point number, if it has a digit. -/
def afterExp (letter : UInt8) : List UInt8 → List UInt8
  | [] => []
  | b :: t =>
    if lower b = letter then
      let u := (optByte [0x2B, 0x2D] t).2
      match u.takeWhile isdigit with
      | [] => b :: t
      | _ => u.dropWhile isdigit
    else b :: t

/-- What follows digits with an optional point, if there is a digit. -/
def afterMantissa (digit : UInt8 → Bool) (t : List UInt8) : Option (List UInt8) :=
  match t.dropWhile digit with
  | [] => if (t.takeWhile digit).isEmpty then none else some []
  | b :: u =>
    if b = 0x2E then
      if (t.takeWhile digit).isEmpty ∧ (u.takeWhile digit).isEmpty then none
      else some (u.dropWhile digit)
    else if (t.takeWhile digit).isEmpty then none
    else some (b :: u)

/-- What follows `nan`, with an optional parenthesised sequence of letters, digits and `_`. -/
def afterNan (t : List UInt8) : Option (List UInt8) :=
  (afterWord [0x6E, 0x61, 0x6E] t).map fun t =>
    match t with
    | 0x28 :: u =>
      let word := fun b => isdigit b || (0x61 ≤ lower b && lower b ≤ 0x7A) || b == 0x5F
      match u.dropWhile word with
      | 0x29 :: v => v
      | _ => t
    | _ => t

/-- What follows a hexadecimal floating-point number. -/
def afterHex : List UInt8 → Option (List UInt8)
  | 0x30 :: x :: t =>
    if lower x = 0x78 then (afterMantissa (fun b => (jsonHexval b).isSome) t).map (afterExp 0x70)
    else none
  | _ => none

/-- The `end` pointer of `strtod`, as the text that is left: the longest initial part that is a
number, where `inf`, `infinity`, `nan` and hexadecimal numbers count. The text does not start with
white space here. -/
def strtodEnd (t : List UInt8) : List UInt8 :=
  let u := (optByte [0x2B, 0x2D] t).2
  match afterWord [0x69, 0x6E, 0x66, 0x69, 0x6E, 0x69, 0x74, 0x79] u,
    afterWord [0x69, 0x6E, 0x66] u, afterNan u, afterHex u, afterMantissa isdigit u with
  | some r, _, _, _, _ => r
  | _, some r, _, _, _ => r
  | _, _, some r, _, _ => r
  | _, _, _, some r, _ => r
  | _, _, _, _, some r => afterExp 0x65 r
  | _, _, _, _, none => t

/-- `parse_number`. -/
def parseNumber (t : List UInt8) : Option (Parsed JsonValue) :=
  let s := scanNumber t
  if (strtodEnd t).length = s.rest.length then
    let lexeme := t.take (t.length - s.rest.length)
    some (.number lexeme (lexeme.all fun b => b != 0x2E && b != 0x65 && b != 0x45), s.rest)
  else none

/-! ## Values -/

/-- `parse_literal`. -/
def parseLiteral (t : List UInt8) : Option (Parsed JsonValue) :=
  if t.take 4 = [0x74, 0x72, 0x75, 0x65] then some (.bool true, t.drop 4)
  else if t.take 5 = [0x66, 0x61, 0x6C, 0x73, 0x65] then some (.bool false, t.drop 5)
  else if t.take 4 = [0x6E, 0x75, 0x6C, 0x6C] then some (.null, t.drop 4)
  else none

/-- The loop of `parse_object`. -/
def objectLoop (value : List UInt8 → Option (Parsed JsonValue)) :
    ℕ → List UInt8 → Option (Parsed (List (List UInt8 × JsonValue)))
  | 0, _ => none
  | k + 1, t => do
    let t₁ ← expect 0x22 (skipWhitespace t)
    let (raw, t₂) ← scanString t₁
    let t₃ ← expect 0x3A (skipWhitespace t₂)
    let (v, t₄) ← value t₃
    match skipWhitespace t₄ with
    | [] => none
    | c :: t₅ =>
      if c = 0x7D then some ([(unescapeString raw, v)], t₅)
      else if c = 0x2C then do
        let (pairs, r) ← objectLoop value k t₅
        some ((unescapeString raw, v) :: pairs, r)
      else none

/-- `parse_object`, after the opening brace. -/
def parseObject (value : List UInt8 → Option (Parsed JsonValue)) (t : List UInt8) :
    Option (Parsed JsonValue) :=
  match skipWhitespace t with
  | [] => some (.object [], [])
  | c :: u =>
    if c = 0x7D then some (.object [], u)
    else (objectLoop value (u.length + 2) (c :: u)).map fun (pairs, r) => (.object pairs, r)

/-- The loop of `parse_array`. -/
def arrayLoop (value : List UInt8 → Option (Parsed JsonValue)) :
    ℕ → List UInt8 → Option (Parsed (List JsonValue))
  | 0, _ => none
  | k + 1, t => do
    let (v, t₁) ← value t
    match skipWhitespace t₁ with
    | [] => none
    | c :: t₂ =>
      if c = 0x5D then some ([v], t₂)
      else if c = 0x2C then do
        let (items, r) ← arrayLoop value k t₂
        some (v :: items, r)
      else none

/-- `parse_array`, after the opening bracket. -/
def parseArray (value : List UInt8 → Option (Parsed JsonValue)) (t : List UInt8) :
    Option (Parsed JsonValue) :=
  match skipWhitespace t with
  | [] => some (.array [], [])
  | c :: u =>
    if c = 0x5D then some (.array [], u)
    else (arrayLoop value (u.length + 2) (c :: u)).map fun (items, r) => (.array items, r)

/-- `parse_value`, with the number of levels that are left. -/
def parseValue : ℕ → List UInt8 → Option (Parsed JsonValue)
  | 0, _ => none
  | n + 1, t =>
    match skipWhitespace t with
    | [] => none
    | c :: u =>
      if c = 0x7B then parseObject (parseValue n) u
      else if c = 0x5B then parseArray (parseValue n) u
      else if c = 0x22 then parseString u
      else if c = 0x2D ∨ (0x30 ≤ c ∧ c ≤ 0x39) then parseNumber (c :: u)
      else if c = 0x74 ∨ c = 0x66 ∨ c = 0x6E then parseLiteral (c :: u)
      else none

/-- The bytes of a C string: those before the first zero byte. -/
def cString (json : List UInt8) : List UInt8 := json.takeWhile (· ≠ 0)

/-- `sneppx_json_parse`. -/
def jsonParse (json : List UInt8) : Option JsonValue := do
  let (v, r) ← parseValue 129 (cString json)
  if (skipWhitespace r).isEmpty then some v else none

end SneppxAlg.Json
