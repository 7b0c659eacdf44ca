import SneppxAlg.Lib.Bytes
import SneppxAlg.Lib.Segments

/-!
# Packed structures in a file

A layout gives the bytes of a value, always the same number of them, and reads a value back from the
front of a byte string. Layouts of the integers are combined into those of packed structures and of
arrays, and `overwrite` is what `fwrite` does at a position of a file.
-/

namespace Lib.Packed

open Lib.Bytes Lib.Segments

/-- The bytes of the values of a type. -/
structure Layout (α : Type) where
  size : ℕ
  encode : α → List UInt8
  decode : List UInt8 → α
  length_encode : ∀ a, (encode a).length = size
  decode_encode : ∀ a rest, decode (encode a ++ rest) = a

variable {α β : Type}

namespace Layout

/-- `uint8_t`. -/
def u8 : Layout UInt8 where
  size := 1
  encode b := [b]
  decode l := l.headD 0
  length_encode _ := rfl
  decode_encode _ _ := rfl

/-- `uint32_t`, least significant byte first. -/
def u32 : Layout UInt32 where
  size := 4
  encode w := leBytes 4 w.toNat
  decode l := UInt32.ofNat (leVal (l.take 4))
  length_encode w := length_leBytes 4 w.toNat
  decode_encode w rest := by
    rw [List.take_left' (length_leBytes 4 _), leVal_leBytes,
      Nat.mod_eq_of_lt (b := 256 ^ 4) w.toNat_lt]
    exact UInt32.ofNat_toNat

/-- `uint64_t`, least significant byte first. -/
def u64 : Layout UInt64 where
  size := 8
  encode w := leBytes 8 w.toNat
  decode l := UInt64.ofNat (leVal (l.take 8))
  length_encode w := length_leBytes 8 w.toNat
  decode_encode w rest := by
    rw [List.take_left' (length_leBytes 8 _), leVal_leBytes,
      Nat.mod_eq_of_lt (b := 256 ^ 8) w.toNat_lt]
    exact UInt64.ofNat_toNat

/-- One field after another. -/
def prod (a : Layout α) (b : Layout β) : Layout (α × β) where
  size := a.size + b.size
  encode x := a.encode x.1 ++ b.encode x.2
  decode l := (a.decode l, b.decode (l.drop a.size))
  length_encode x := by rw [List.length_append, a.length_encode, b.length_encode]
  decode_encode x rest := by
    rw [List.append_assoc, a.decode_encode, List.drop_left' (a.length_encode _), b.decode_encode]

def ofFields (a : Layout α) (fields : β → α) (mk : α → β) (h : ∀ b, mk (fields b) = b) : Layout β where
  size := a.size
  encode b := a.encode (fields b)
  decode l := mk (a.decode l)
  length_encode b := a.length_encode (fields b)
  decode_encode b rest := by rw [a.decode_encode, h]

variable (a : Layout α)

theorem length_flatMap (l : List α) : (l.flatMap a.encode).length = l.length * a.size :=
  length_flatMap_of_length fun x _ => a.length_encode x

/-- The entry at an index of an array. -/
theorem decode_drop_flatMap {l : List α} {i : ℕ} (hi : i < l.length) (rest : List UInt8) :
    a.decode ((l.flatMap a.encode ++ rest).drop (i * a.size)) = l[i] := by
  obtain ⟨post, hpost⟩ := drop_flatMap (fun x _ => a.length_encode x) hi rest
  rw [hpost, a.decode_encode]

/-- An array of fixed length. -/
def vector (n : ℕ) : Layout (Vector α n) where
  size := n * a.size
  encode v := v.toList.flatMap a.encode
  decode l := Vector.ofFn fun i => a.decode (l.drop (i * a.size))
  length_encode v := by rw [a.length_flatMap, Vector.length_toList]
  decode_encode v rest := by
    ext i hi
    rw [Vector.getElem_ofFn, a.decode_drop_flatMap (by simpa using hi), Vector.getElem_toList]

end Layout

/-! ## Writing at a position -/

/-- `fwrite` at a position of a file. -/
def overwrite (file : List UInt8) (pos : ℕ) (data : List UInt8) : List UInt8 :=
  file.take pos ++ List.replicate (pos - file.length) 0 ++ data ++ file.drop (pos + data.length)

theorem overwrite_end (file data : List UInt8) : overwrite file file.length data = file ++ data := by
  simp [overwrite]

theorem overwrite_part (a : List UInt8) {b b' : List UInt8} (h : b'.length = b.length)
    (c : List UInt8) :
    overwrite (a ++ b ++ c) a.length b' = a ++ b' ++ c := by
  have hpos : a.length - (a ++ b ++ c).length = 0 := by
    simp only [List.length_append]
    omega
  rw [overwrite, hpos, List.replicate_zero, List.append_nil, List.append_assoc a b,
    List.take_left' rfl, ← List.append_assoc a b, List.drop_left' (by rw [List.length_append, h])]

end Lib.Packed
