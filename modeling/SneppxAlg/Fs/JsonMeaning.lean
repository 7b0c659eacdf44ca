import SneppxAlg.Fs.JsonGrammar

/-!
# What a JSON text denotes

The grammar of RFC 8259 once more, now with the tree that a text denotes and the number of levels it
needs. How the characters of a string are read is a parameter `D`: for `CharsDenote` every escape is
decoded to UTF-8 and two surrogates are joined, as the RFC says; the parser has its own reading.
A string with half a pair of surrogates denotes nothing.
-/

namespace SneppxAlg.Json

/-! ## Strings -/

/-- The two-character escapes and the characters they stand for. -/
def escapeTable : List (UInt8 × UInt8) :=
  [(0x22, 0x22), (0x5C, 0x5C), (0x2F, 0x2F), (0x62, 0x08), (0x66, 0x0C), (0x6E, 0x0A), (0x72, 0x0D),
    (0x74, 0x09)]

/-- The characters between the quotes of a string, and their encoding in UTF-8 when every escape is
decoded. -/
inductive CharsDenote : List UInt8 → List UInt8 → Prop
  | nil : CharsDenote [] []
  | plain (b : UInt8) (l v : List UInt8) : 0x20 ≤ b → b < 0x80 → b ≠ 0x22 → b ≠ 0x5C →
      CharsDenote l v → CharsDenote (b :: l) (b :: v)
  | multi (c l v : List UInt8) : Utf8 c → CharsDenote l v → CharsDenote (c ++ l) (c ++ v)
  | escape (c b : UInt8) (l v : List UInt8) : (c, b) ∈ escapeTable → CharsDenote l v →
      CharsDenote (0x5C :: c :: l) (b :: v)
  | unicode (h₁ h₂ h₃ h₄ : UInt8) (c : Char) (l v : List UInt8) :
      hexCode h₁ h₂ h₃ h₄ = some c.toNat → CharsDenote l v →
      CharsDenote (0x5C :: 0x75 :: h₁ :: h₂ :: h₃ :: h₄ :: l) (String.utf8EncodeChar c ++ v)
  | pair (h₁ h₂ h₃ h₄ k₁ k₂ k₃ k₄ : UInt8) (high low : ℕ) (c : Char) (l v : List UInt8) :
      hexCode h₁ h₂ h₃ h₄ = some high → 0xD800 ≤ high → high < 0xDC00 →
      hexCode k₁ k₂ k₃ k₄ = some low → 0xDC00 ≤ low → low < 0xE000 →
      c.toNat = 0x10000 + (high - 0xD800) * 0x400 + (low - 0xDC00) → CharsDenote l v →
      CharsDenote (0x5C :: 0x75 :: h₁ :: h₂ :: h₃ :: h₄ :: 0x5C :: 0x75 :: k₁ :: k₂ :: k₃ :: k₄ :: l)
        (String.utf8EncodeChar c ++ v)

/-! ## Values -/

mutual

/-- A value that needs at most the given number of levels, with its tree. A number is an integer if it
has no fraction and no exponent. -/
inductive Denotes (D : List UInt8 → List UInt8 → Prop) : ℕ → List UInt8 → JsonValue → Prop
  | true (n : ℕ) : Denotes D (n + 1) [0x74, 0x72, 0x75, 0x65] (.bool true)
  | false (n : ℕ) : Denotes D (n + 1) [0x66, 0x61, 0x6C, 0x73, 0x65] (.bool false)
  | null (n : ℕ) : Denotes D (n + 1) [0x6E, 0x75, 0x6C, 0x6C] .null
  | number (n : ℕ) (minus int frac exp : List UInt8) : minus = [] ∨ minus = [0x2D] → IsInt int →
      IsFrac frac → IsExp exp →
      Denotes D (n + 1) (minus ++ (int ++ (frac ++ exp)))
        (.number (minus ++ (int ++ (frac ++ exp))) (frac.isEmpty && exp.isEmpty))
  | string (n : ℕ) (l v : List UInt8) : D l v →
      Denotes D (n + 1) (0x22 :: (l ++ [0x22])) (.string v)
  | emptyArray (n : ℕ) (w : List UInt8) : Ws w → Denotes D (n + 1) (0x5B :: (w ++ [0x5D])) (.array [])
  | array (n : ℕ) (l : List UInt8) (items : List JsonValue) : ElementsDenote D n l items →
      Denotes D (n + 1) (0x5B :: (l ++ [0x5D])) (.array items)
  | emptyObject (n : ℕ) (w : List UInt8) : Ws w →
      Denotes D (n + 1) (0x7B :: (w ++ [0x7D])) (.object [])
  | object (n : ℕ) (l : List UInt8) (pairs : List (List UInt8 × JsonValue)) :
      MembersDenote D n l pairs → Denotes D (n + 1) (0x7B :: (l ++ [0x7D])) (.object pairs)

/-- The elements of an array, in their order. -/
inductive ElementsDenote (D : List UInt8 → List UInt8 → Prop) :
    ℕ → List UInt8 → List JsonValue → Prop
  | one (n : ℕ) (w l w' : List UInt8) (v : JsonValue) : Ws w → Denotes D n l v → Ws w' →
      ElementsDenote D n (w ++ (l ++ w')) [v]
  | more (n : ℕ) (w l w' rest : List UInt8) (v : JsonValue) (items : List JsonValue) : Ws w →
      Denotes D n l v → Ws w' → ElementsDenote D n rest items →
      ElementsDenote D n (w ++ (l ++ (w' ++ 0x2C :: rest))) (v :: items)

/-- The members of an object, in their order. -/
inductive MembersDenote (D : List UInt8 → List UInt8 → Prop) :
    ℕ → List UInt8 → List (List UInt8 × JsonValue) → Prop
  | one (n : ℕ) (w k w₁ w₂ l w' name : List UInt8) (v : JsonValue) : Ws w → D k name → Ws w₁ → Ws w₂ →
      Denotes D n l v → Ws w' →
      MembersDenote D n (w ++ 0x22 :: (k ++ 0x22 :: (w₁ ++ 0x3A :: (w₂ ++ (l ++ w'))))) [(name, v)]
  | more (n : ℕ) (w k w₁ w₂ l w' rest name : List UInt8) (v : JsonValue)
      (pairs : List (List UInt8 × JsonValue)) : Ws w → D k name → Ws w₁ → Ws w₂ → Denotes D n l v →
      Ws w' → MembersDenote D n rest pairs →
      MembersDenote D n (w ++ 0x22 :: (k ++ 0x22 :: (w₁ ++ 0x3A :: (w₂ ++ (l ++ (w' ++ 0x2C :: rest))))))
        ((name, v) :: pairs)

end

/-- A JSON text of at most `n` levels, with its tree. -/
def TextDenotes (D : List UInt8 → List UInt8 → Prop) (n : ℕ) (text : List UInt8) (tree : JsonValue) :
    Prop :=
  ∃ w l w', text = w ++ (l ++ w') ∧ Ws w ∧ Denotes D n l tree ∧ Ws w'

/-! ## The tree that a caller sees -/

mutual

/-- The strings of the parsed tree end at their first zero byte: `string_val` and `key` have no length. -/
def JsonValue.seen : JsonValue → JsonValue
  | .string value => .string (cString value)
  | .array items => .array (seenItems items)
  | .object pairs => .object (seenPairs pairs)
  | .null => .null
  | .bool value => .bool value
  | .number lexeme isInteger => .number lexeme isInteger

def seenItems : List JsonValue → List JsonValue
  | [] => []
  | v :: items => v.seen :: seenItems items

def seenPairs : List (List UInt8 × JsonValue) → List (List UInt8 × JsonValue)
  | [] => []
  | (name, v) :: pairs => (cString name, v.seen) :: seenPairs pairs

end

/-! ## Escapes that need no joining -/

/-- The code of a `\u` escape is not zero and not that of a surrogate. -/
def simpleCode (code : ℕ) : Bool := code ≠ 0 && !(0xD800 ≤ code && code < 0xE000)

/-- Every `\u` escape of the text stands for a character by itself, and not for the zero character. -/
def simpleEscapes : List UInt8 → Bool
  | [] => true
  | [_] => true
  | b :: c :: rest =>
    if b = 0x5C then
      if c = 0x75 then
        match rest with
        | h₁ :: h₂ :: h₃ :: h₄ :: rest =>
          ((hexCode h₁ h₂ h₃ h₄).all simpleCode) && simpleEscapes rest
        | _ => true
      else simpleEscapes rest
    else simpleEscapes (c :: rest)

end SneppxAlg.Json
