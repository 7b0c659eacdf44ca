import Mathlib

/-!
# C strings in memory

A memory is a function from addresses to bytes. A string that is written with its terminating NUL is
read back (`readStr_of_strAt`), and stays where it is when other bytes are written or moved.
-/

namespace Lib.CString

/-- The bytes of a C string, without its NUL. -/
structure CStr where
  bytes : List UInt8
  zero_notMem : 0 ∉ bytes

/-- A memory. -/
abbrev Mem := ℕ → UInt8

/-- The string at an address in an object of which `n` bytes are left: none if it has no NUL there. -/
def readStr (m : Mem) (off : ℕ) : ℕ → Option (List UInt8)
  | 0 => none
  | n + 1 => if m off = 0 then some [] else (readStr m (off + 1) n).map (m off :: ·)

/-- A string and its NUL, written at an address. -/
def writeStr (m : Mem) (off : ℕ) (s : List UInt8) : Mem := fun a =>
  if off ≤ a ∧ a ≤ off + s.length then s.getD (a - off) 0 else m a

/-- `memmove`. -/
def moveBytes (m : Mem) (dst src n : ℕ) : Mem := fun a =>
  if dst ≤ a ∧ a < dst + n then m (a - dst + src) else m a

/-- The bytes of `s` and a NUL are at an address. -/
def StrAt (m : Mem) (off : ℕ) (s : List UInt8) : Prop :=
  ∀ i ≤ s.length, m (off + i) = s.getD i 0

theorem readStr_of_strAt {m : Mem} {off n : ℕ} {s : List UInt8} (h : StrAt m off s) (h0 : 0 ∉ s)
    (hn : s.length < n) : readStr m off n = some s := by
  induction s generalizing off n with
  | nil =>
    obtain ⟨n, rfl⟩ : ∃ k, n = k + 1 := ⟨n - 1, by simp at hn; omega⟩
    have hnul := h 0 le_rfl
    simp only [List.getD_nil, add_zero] at hnul
    rw [readStr, if_pos hnul]
  | cons b s ih =>
    obtain ⟨n, rfl⟩ : ∃ k, n = k + 1 := ⟨n - 1, by simp at hn; omega⟩
    have hb : m off = b := h 0 (Nat.zero_le _)
    rw [List.mem_cons, not_or] at h0
    have hrest : StrAt m (off + 1) s := by
      intro i hi
      have := h (i + 1) (by simpa using hi)
      rw [List.getD_cons_succ] at this
      rw [← this]
      congr 1
      omega
    rw [readStr, hb, if_neg (Ne.symm h0.1), ih hrest h0.2 (by simpa using hn), Option.map_some]

theorem strAt_writeStr (m : Mem) (off : ℕ) (s : List UInt8) : StrAt (writeStr m off s) off s := by
  intro i hi
  rw [writeStr, if_pos (by omega), Nat.add_sub_cancel_left]

/-- Writing elsewhere leaves a string alone. -/
theorem StrAt.writeStr {m : Mem} {off off' : ℕ} {s s' : List UInt8} (h : StrAt m off s)
    (hd : off + s.length < off' ∨ off' + s'.length < off) : StrAt (writeStr m off' s') off s := by
  intro i hi
  rw [CString.writeStr, if_neg (by omega)]
  exact h i hi

theorem StrAt.moveBytes {m : Mem} {dst src n off : ℕ} {s : List UInt8} (h : StrAt m (off + src) s)
    (hn : off + s.length < n) : StrAt (moveBytes m dst src n) (off + dst) s := by
  intro i hi
  rw [CString.moveBytes, if_pos (by omega), ← h i hi]
  congr 1
  omega

end Lib.CString
