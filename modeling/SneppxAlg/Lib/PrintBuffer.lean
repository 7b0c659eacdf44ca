import Mathlib.Data.List.Basic
import Mathlib.Logic.Function.Basic
import Mathlib.Tactic.Ring

/-!
# Texts that are put into a buffer piece by piece

C code that puts a text together calls `snprintf(out + pos, size - pos, …)` and adds the length of the
piece to `pos`. The length is that of the whole piece, also if it has been cut off. The difference
`size - pos` is unsigned, so behind the end of the buffer it is a huge number and nothing is cut off.

All writes are inside the buffer exactly if the last piece starts in it or at its end
(`inside_foldl_iff`), and as long as everything fits the buffer holds the pieces (`Holds.put`).
-/

namespace Lib.PrintBuffer

/-- Writes to consecutive places. -/
def placed : ℕ → List UInt8 → List (ℕ × UInt8)
  | _, [] => []
  | a, b :: l => (a, b) :: placed (a + 1) l

/-- What `snprintf` writes for a text, where there is room for `room` bytes. -/
def snprintf (a room : ℕ) (text : List UInt8) : List (ℕ × UInt8) :=
  if room = 0 then [] else placed a (text.take (room - 1) ++ [0])

/-- The running offset, and the writes so far with their places. -/
structure Cursor where
  pos : ℕ
  writes : List (ℕ × UInt8)

/-- `pos += snprintf(out + pos, size - pos, …)`. -/
def Cursor.put (size : UInt64) (c : Cursor) (text : List UInt8) : Cursor :=
  { pos := c.pos + text.length
    writes := c.writes ++ snprintf c.pos (size - UInt64.ofNat c.pos).toNat text }

/-- What memory holds after some writes. -/
def readBack (mem : ℕ → UInt8) (writes : List (ℕ × UInt8)) : ℕ → UInt8 :=
  writes.foldl (fun m w => Function.update m w.1 w.2) mem

def Inside (size : UInt64) (writes : List (ℕ × UInt8)) : Prop := ∀ w ∈ writes, w.1 < size.toNat

/-- The buffer begins with the text. -/
structure Holds (mem : ℕ → UInt8) (c : Cursor) (text : List UInt8) : Prop where
  pos : c.pos = text.length
  read : ∀ i (h : i < text.length), readBack mem c.writes i = text[i]

variable {size : UInt64} {c : Cursor} {mem : ℕ → UInt8} {a : ℕ} {l text t : List UInt8}

/-! ## Consecutive places -/

theorem mem_placed {w : ℕ × UInt8} (h : w ∈ placed a l) : a ≤ w.1 ∧ w.1 < a + l.length := by
  induction l generalizing a with
  | nil => simp [placed] at h
  | cons b l ih =>
    rcases List.mem_cons.mp h with rfl | hmem
    · simp
    · have := ih hmem
      simp only [List.length_cons]
      omega

theorem readBack_append (ws ws' : List (ℕ × UInt8)) :
    readBack mem (ws ++ ws') = readBack (readBack mem ws) ws' := List.foldl_append

theorem readBack_of_ne {ws : List (ℕ × UInt8)} {i : ℕ} (h : ∀ w ∈ ws, w.1 ≠ i) :
    readBack mem ws i = mem i := by
  induction ws generalizing mem with
  | nil => rfl
  | cons w ws ih =>
    have hrest := @ih (Function.update mem w.1 w.2) fun w' hw' => h w' (List.mem_cons_of_mem w hw')
    exact hrest.trans (Function.update_of_ne (h w List.mem_cons_self).symm _ _)

theorem readBack_placed {i : ℕ} (hi : i < l.length) : readBack mem (placed a l) (a + i) = l[i] := by
  induction l generalizing a i mem with
  | nil => simp at hi
  | cons b l ih =>
    cases i with
    | zero =>
      have hrest : readBack (Function.update mem a b) (placed (a + 1) l) a = Function.update mem a b a :=
        readBack_of_ne fun w hw => by
          have := (mem_placed hw).1
          omega
      exact hrest.trans (Function.update_self _ _ _)
    | succ i =>
      have hrest := @ih (Function.update mem a b) (a + 1) i (by simpa using hi)
      rw [Nat.add_assoc, Nat.add_comm 1] at hrest
      exact hrest

/-! ## One piece -/

theorem toNat_pos (hpos : c.pos < 2 ^ 64) : (UInt64.ofNat c.pos).toNat = c.pos :=
  UInt64.toNat_ofNat_of_lt' hpos

theorem room_of_le (h : c.pos ≤ size.toNat) : (size - UInt64.ofNat c.pos).toNat = size.toNat - c.pos := by
  have hsize := size.toNat_lt
  have hpos := @toNat_pos c (by omega)
  rw [UInt64.toNat_sub_of_le _ _ (UInt64.le_iff_toNat_le.mpr (by omega)), hpos]

theorem room_pos_of_gt (h : size.toNat < c.pos) (hpos : c.pos < 2 ^ 64) :
    (size - UInt64.ofNat c.pos).toNat ≠ 0 := by
  have hsize := size.toNat_lt
  rw [UInt64.toNat_sub, toNat_pos hpos]
  omega

theorem inside_append {ws ws' : List (ℕ × UInt8)} :
    Inside size (ws ++ ws') ↔ Inside size ws ∧ Inside size ws' := List.forall_mem_append

theorem Inside.put (h : Inside size c.writes) (hpos : c.pos ≤ size.toNat) (text : List UInt8) :
    Inside size (c.put size text).writes := by
  refine inside_append.mpr ⟨h, fun w hw => ?_⟩
  rw [room_of_le hpos, snprintf] at hw
  split_ifs at hw with hroom
  · exact absurd hw List.not_mem_nil
  · have hplace := (mem_placed hw).2
    simp only [List.length_append, List.length_take, List.length_singleton] at hplace
    omega

/-- A piece that starts behind the end is written there. -/
theorem not_inside_put (h : size.toNat < c.pos) (hpos : c.pos < 2 ^ 64) (text : List UInt8) :
    ¬ Inside size (c.put size text).writes := by
  intro hinside
  have hnew := (inside_append.mp hinside).2
  rw [snprintf, if_neg (room_pos_of_gt h hpos)] at hnew
  obtain ⟨b, l, hl⟩ := List.exists_cons_of_ne_nil
    (List.append_ne_nil_of_right_ne_nil (text.take ((size - UInt64.ofNat c.pos).toNat - 1))
      (List.cons_ne_nil (0 : UInt8) []))
  rw [hl] at hnew
  have := hnew (c.pos, b) List.mem_cons_self
  dsimp only at this
  omega

/-! ## Some pieces -/

theorem pos_foldl_put (ts : List (List UInt8)) :
    (ts.foldl (Cursor.put size) c).pos = c.pos + ts.flatten.length := by
  induction ts generalizing c with
  | nil => simp
  | cons t ts ih =>
    rw [List.foldl_cons, ih, List.flatten_cons, List.length_append]
    exact Nat.add_assoc _ _ _

theorem Inside.foldl (h : Inside size c.writes) {ts : List (List UInt8)}
    (hpos : c.pos + ts.flatten.length ≤ size.toNat) :
    Inside size (ts.foldl (Cursor.put size) c).writes := by
  induction ts generalizing c with
  | nil => exact h
  | cons t ts ih =>
    rw [List.flatten_cons, List.length_append] at hpos
    exact ih (h.put (by omega) t) (by simp only [Cursor.put]; omega)

theorem inside_of_foldl {ts : List (List UInt8)} (h : Inside size (ts.foldl (Cursor.put size) c).writes) :
    Inside size c.writes := by
  induction ts generalizing c with
  | nil => exact h
  | cons t ts ih => exact (inside_append.mp (ih h)).1

/-- Everything is written inside exactly if the last piece does not start behind the end. -/
theorem inside_foldl_iff {ts : List (List UInt8)} (hpos : c.pos + ts.flatten.length < 2 ^ 64) :
    Inside size ((ts ++ [t]).foldl (Cursor.put size) c).writes ↔
      Inside size c.writes ∧ c.pos + ts.flatten.length ≤ size.toNat := by
  rw [List.foldl_append, List.foldl_cons, List.foldl_nil]
  have hlast := @pos_foldl_put size c ts
  constructor
  · intro h
    refine ⟨inside_of_foldl (inside_append.mp h).1, ?_⟩
    by_contra hgt
    exact not_inside_put (by omega) (by omega) t h
  · rintro ⟨h, hle⟩
    exact (h.foldl hle).put (by omega) t

/-- A text that is put down behind what the buffer holds, with anything behind it. -/
theorem Holds.placed (h : Holds mem c text) (t rest : List UInt8) :
    Holds mem ⟨c.pos + t.length, c.writes ++ placed c.pos (t ++ rest)⟩ (text ++ t) := by
  refine ⟨by simp [h.pos], fun i hi => ?_⟩
  rw [readBack_append]
  by_cases hold : i < text.length
  · rw [List.getElem_append_left hold, readBack_of_ne, h.read i hold]
    intro w hw
    have := (mem_placed hw).1
    have := h.pos
    omega
  · rw [List.length_append] at hi
    have hi' : i - text.length < t.length := by omega
    have hplace : i = c.pos + (i - text.length) := by
      have := h.pos
      omega
    rw [List.getElem_append_right (by omega)]
    conv_lhs => rw [hplace]
    rw [readBack_placed (by simp; omega), List.getElem_append_left hi']

theorem Holds.put (h : Holds mem c text) (hfit : c.pos + t.length < size.toNat) :
    Holds mem (c.put size t) (text ++ t) := by
  have hput : c.put size t = ⟨c.pos + t.length, c.writes ++ PrintBuffer.placed c.pos (t ++ [0])⟩ := by
    have htake : t.take (size.toNat - c.pos - 1) = t := List.take_of_length_le (by omega)
    rw [Cursor.put, room_of_le (by omega), snprintf, if_neg (by omega), htake]
  rw [hput]
  exact h.placed t [0]

theorem Holds.written (h : Holds mem c text) : (List.range c.pos).map (readBack mem c.writes) = text := by
  refine List.ext_getElem (by simpa using h.pos) fun i h1 h2 => ?_
  rw [List.getElem_map, List.getElem_range, h.read i h2]

theorem Holds.foldl (h : Holds mem c text) {ts : List (List UInt8)}
    (hfit : c.pos + ts.flatten.length < size.toNat) :
    Holds mem (ts.foldl (Cursor.put size) c) (text ++ ts.flatten) := by
  induction ts generalizing c text with
  | nil => simpa using h
  | cons t ts ih =>
    rw [List.flatten_cons, List.length_append] at hfit
    have hrest := ih (@Holds.put size c mem text t h (by omega)) (by simp only [Cursor.put]; omega)
    rwa [List.append_assoc] at hrest

end Lib.PrintBuffer
