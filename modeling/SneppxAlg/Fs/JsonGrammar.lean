import SneppxAlg.Fs.Json

/-!
# The grammar of RFC 8259

The grammar over the bytes of a text in UTF-8, production by production. `value`, the elements of an
array and the members of an object are predicates on byte strings.
-/

namespace SneppxAlg.Json

/-- `ws`. -/
def isWs (b : UInt8) : Bool := b == 0x20 || b == 0x09 || b == 0x0A || b == 0x0D

/-- A run of `ws`. -/
def Ws (l : List UInt8) : Prop := ∀ b ∈ l, isWs b = true

/-! ## Numbers -/

/-- `1*DIGIT`. -/
def Digits (l : List UInt8) : Prop := l ≠ [] ∧ ∀ b ∈ l, isdigit b = true

/-- `int = zero / ( digit1-9 *DIGIT )`. -/
inductive IsInt : List UInt8 → Prop
  | zero : IsInt [0x30]
  | pos (d : UInt8) (ds : List UInt8) : isdigit d = true → d ≠ 0x30 → (∀ b ∈ ds, isdigit b = true) →
      IsInt (d :: ds)

/-- `[ frac ]` with `frac = decimal-point 1*DIGIT`. -/
inductive IsFrac : List UInt8 → Prop
  | none : IsFrac []
  | some (ds : List UInt8) : Digits ds → IsFrac (0x2E :: ds)

/-- `[ exp ]` with `exp = e [ minus / plus ] 1*DIGIT`. -/
inductive IsExp : List UInt8 → Prop
  | none : IsExp []
  | some (e : UInt8) (sign ds : List UInt8) : e = 0x65 ∨ e = 0x45 →
      sign = [] ∨ sign = [0x2B] ∨ sign = [0x2D] → Digits ds → IsExp (e :: (sign ++ ds))

/-- `number = [ minus ] int [ frac ] [ exp ]`. -/
inductive IsNumber : List UInt8 → Prop
  | mk (minus int frac exp : List UInt8) : minus = [] ∨ minus = [0x2D] → IsInt int → IsFrac frac →
      IsExp exp → IsNumber (minus ++ (int ++ (frac ++ exp)))

/-! ## Strings -/

/-- A continuation byte of UTF-8. -/
def isCont (b : UInt8) : Bool := 0x80 ≤ b && b ≤ 0xBF

/-- The well-formed encodings of the characters from U+0080 on. -/
inductive Utf8 : List UInt8 → Prop
  | two (a b : UInt8) : 0xC2 ≤ a → a ≤ 0xDF → isCont b = true → Utf8 [a, b]
  | three (a b c : UInt8) : 0xE0 ≤ a → a ≤ 0xEF → isCont b = true → (a = 0xE0 → 0xA0 ≤ b) →
      (a = 0xED → b ≤ 0x9F) → isCont c = true → Utf8 [a, b, c]
  | four (a b c d : UInt8) : 0xF0 ≤ a → a ≤ 0xF4 → isCont b = true → (a = 0xF0 → 0x90 ≤ b) →
      (a = 0xF4 → b ≤ 0x8F) → isCont c = true → isCont d = true → Utf8 [a, b, c, d]

/-- `*char`: unescaped characters, two-character escapes and `\u` with four hexadecimal digits. -/
inductive Chars : List UInt8 → Prop
  | nil : Chars []
  | plain (b : UInt8) (l : List UInt8) : 0x20 ≤ b → b < 0x80 → b ≠ 0x22 → b ≠ 0x5C → Chars l →
      Chars (b :: l)
  | multi (c l : List UInt8) : Utf8 c → Chars l → Chars (c ++ l)
  | escape (c : UInt8) (l : List UInt8) :
      c ∈ [0x22, 0x5C, 0x2F, 0x62, 0x66, 0x6E, 0x72, (0x74 : UInt8)] → Chars l →
      Chars (0x5C :: c :: l)
  | unicode (h₁ h₂ h₃ h₄ : UInt8) (l : List UInt8) :
      (∀ h ∈ [h₁, h₂, h₃, h₄], (jsonHexval h).isSome) → Chars l →
      Chars (0x5C :: 0x75 :: h₁ :: h₂ :: h₃ :: h₄ :: l)

/-! ## Values -/

mutual

/-- `value`. -/
inductive Value : List UInt8 → Prop
  | true : Value [0x74, 0x72, 0x75, 0x65]
  | false : Value [0x66, 0x61, 0x6C, 0x73, 0x65]
  | null : Value [0x6E, 0x75, 0x6C, 0x6C]
  | number (l : List UInt8) : IsNumber l → Value l
  | string (l : List UInt8) : Chars l → Value (0x22 :: (l ++ [0x22]))
  | emptyArray (w : List UInt8) : Ws w → Value (0x5B :: (w ++ [0x5D]))
  | array (l : List UInt8) : Elements l → Value (0x5B :: (l ++ [0x5D]))
  | emptyObject (w : List UInt8) : Ws w → Value (0x7B :: (w ++ [0x7D]))
  | object (l : List UInt8) : Members l → Value (0x7B :: (l ++ [0x7D]))

/-- `value *( value-separator value )`, each with `ws` around it. -/
inductive Elements : List UInt8 → Prop
  | one (w v w' : List UInt8) : Ws w → Value v → Ws w' → Elements (w ++ (v ++ w'))
  | more (w v w' l : List UInt8) : Ws w → Value v → Ws w' → Elements l →
      Elements (w ++ (v ++ (w' ++ 0x2C :: l)))

/-- `member *( value-separator member )` with `member = string name-separator value`. -/
inductive Members : List UInt8 → Prop
  | one (w k w₁ w₂ v w' : List UInt8) : Ws w → Chars k → Ws w₁ → Ws w₂ → Value v → Ws w' →
      Members (w ++ 0x22 :: (k ++ 0x22 :: (w₁ ++ 0x3A :: (w₂ ++ (v ++ w')))))
  | more (w k w₁ w₂ v w' l : List UInt8) : Ws w → Chars k → Ws w₁ → Ws w₂ → Value v → Ws w' →
      Members l →
      Members (w ++ 0x22 :: (k ++ 0x22 :: (w₁ ++ 0x3A :: (w₂ ++ (v ++ (w' ++ 0x2C :: l))))))

end

/-- `JSON-text = ws value ws`. -/
def JsonText (l : List UInt8) : Prop := ∃ w v w', l = w ++ (v ++ w') ∧ Ws w ∧ Value v ∧ Ws w'

/-! ## Lexemes -/

/-- What may follow a value. -/
def Follow (t : List UInt8) : Prop :=
  ∀ b ∈ t.head?, isWs b = true ∨ b = 0x2C ∨ b = 0x5D ∨ b = 0x7D

/-- The text is a sequence of lexemes: outside of strings and numbers, which are those of the grammar, there is no
vertical tab and no form feed. -/
inductive Lexed : List UInt8 → Prop
  | nil : Lexed []
  | byte (b : UInt8) (t : List UInt8) : b ∉ [0x0B, 0x0C, 0x22, (0x2D : UInt8)] → isdigit b = false → Lexed t →
      Lexed (b :: t)
  | string (raw t : List UInt8) : Chars raw → Lexed t → Lexed (0x22 :: (raw ++ 0x22 :: t))
  | number (l t : List UInt8) : IsNumber l → Follow t → Lexed t → Lexed (l ++ t)

/-- An opening bracket or brace with nothing but white space around it. -/
def LoneBracket (l : List UInt8) : Prop := ∃ w b w', l = w ++ b :: w' ∧ Ws w ∧ (b = 0x5B ∨ b = 0x7B) ∧ Ws w'

end SneppxAlg.Json
