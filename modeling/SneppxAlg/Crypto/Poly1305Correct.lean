import SneppxAlg.Crypto.Poly1305Stream

/-!
# Poly1305 against RFC 8439

`rfcTag` is the value RFC 8439 asks for. The code agrees with it except when the message
polynomial has a residue below 5 modulo `p`: there the accumulator ends in `[p, 2 ^ 130)` and
the subtraction that should bring it down never happens, because of the wrong constant in
`finish`. `tag_eq_rfcTag_iff` says exactly when.
-/

namespace SneppxAlg.Poly1305

open Lib.Bytes

/-! ## The specification -/

/-- The clamped key `r` of RFC 8439, section 2.5.1. -/
def rfcR (key : Vector UInt8 32) : Nat :=
  leVal (key.toList.take 16) &&& 0x0ffffffc0ffffffc0ffffffc0fffffff

/-- The pad `s`. -/
def rfcS (key : Vector UInt8 32) : Nat := leVal (key.toList.drop 16)

/-- The message polynomial at `r`, modulo `p`. -/
def rfcAcc (key : Vector UInt8 32) (m : List UInt8) : Nat :=
  polyPrefix (rfcR key) m (blockCount m) % p

def rfcTag (key : Vector UInt8 32) (m : List UInt8) : List UInt8 :=
  leBytes 16 ((rfcAcc key m + rfcS key) % 2 ^ 128)

/-! ## The key -/

theorem init_r_val (key : Vector UInt8 32) : (init key).r.val = rfcR key := by
  have hclamp : (clampBytes key).toList = List.zipWith (· &&& ·) (key.toList.take 16)
      [0xff, 0xff, 0xff, 0x0f, 0xfc, 0xff, 0xff, 0x0f,
       0xfc, 0xff, 0xff, 0x0f, 0xfc, 0xff, 0xff, 0x0f] := by
    have hff (b : UInt8) : b &&& 0xff = b := UInt8.and_neg_one
    rw [toList_key, clampBytes]
    simp [hff]
  rw [init, limbsOf_val, load_eq, hclamp, leVal_zipWith_and _ _ (by simp), rfcR]
  rfl

theorem init_pad (key : Vector UInt8 32) :
    (init key).s0.toNat + 2 ^ 64 * (init key).s1.toNat = rfcS key := by
  have hpad : (padBytes key).toList = key.toList.drop 16 := by
    rw [toList_key, padBytes]
    simp
  rw [init, load_eq, hpad, rfcS]

/-! ## The last block -/

theorem toList_padBlock (s : State) : (padBlock s).toList =
    s.buf.toList.take s.buflen.val ++ 1 :: List.replicate (15 - s.buflen.val) 0 := by
  have hlt := s.buflen.isLt
  apply List.ext_getElem
  · simp
    omega
  · intro i h1 h2
    simp only [Vector.length_toList] at h1
    simp only [padBlock, Vector.getElem_toList, Vector.getElem_ofFn, Fin.getElem_fin]
    rcases Nat.lt_trichotomy i s.buflen.val with h | h | h
    · rw [List.getElem_append_left (by simp; omega), if_neg (by simp [Fin.ext_iff]; omega),
        if_pos h]
      simp
    · rw [List.getElem_append_right (by simp; omega), if_pos (by simp [h])]
      simp [h]
    · rw [List.getElem_append_right (by simp; omega), if_neg (by simp [Fin.ext_iff]; omega),
        if_neg (by omega), List.getElem_cons]
      simp
      omega

theorem leVal_padBlock {key : Vector UInt8 32} {s : State} {m : List UInt8} (h : Holds key s m) :
    leVal (padBlock s).toList = blockVal m (m.length / 16) := by
  have hshort : (m.drop (16 * (m.length / 16))).length ≤ 16 := by
    rw [List.length_drop]
    omega
  rw [toList_padBlock, h.buf, blockVal, List.take_of_length_le hshort,
    List.append_cons, leVal_append, leVal_replicate_zero, Nat.mul_zero, Nat.add_zero]

theorem blockVal_ge (m : List UInt8) (h : m.length % 16 ≠ 0) : 5 ≤ blockVal m (m.length / 16) := by
  have hlen : 1 ≤ ((m.drop (16 * (m.length / 16))).take 16).length := by
    simp only [List.length_take, List.length_drop]
    omega
  have hpow : 256 ^ 1 ≤ 256 ^ ((m.drop (16 * (m.length / 16))).take 16).length :=
    Nat.pow_le_pow_right (by decide) hlen
  rw [blockVal_eq]
  omega

/-! ## The final accumulator -/

/-- The accumulator that `finish` packs. -/
def finalVal (s : State) : Nat := (carry (flush s).h).val

/-- What the last block leaves behind. -/
structure Flushed (key : Vector UInt8 32) (h : Limbs) (m : List UInt8) : Prop where
  carried : h.Carried
  val : h.val % p = rfcAcc key m
  zero : m = [] ∨ rfcR key = 0 → h.val = 0
  ge : m ≠ [] → rfcR key ≠ 0 → 5 ≤ h.val

theorem Holds.flushed {key : Vector UInt8 32} {s : State} {m : List UInt8} (h : Holds key s m) :
    Flushed key (flush s).h m := by
  have hr : s.r.val = rfcR key := by rw [h.r, init_r_val]
  have hbl := h.buflen
  rw [flush]
  split
  case isTrue h0 =>
    have hcount : blockCount m = m.length / 16 := by
      rw [blockCount]
      omega
    refine ⟨h.carried, ?_, fun hz => ?_, fun hm hr0 => ?_⟩
    · rw [rfcAcc, hcount, ← hr, h.val]
    · exact h.zero (hz.imp (fun hm => by simp [hm]) fun hr0 => by rw [hr, hr0])
    · have hpos := List.length_pos_iff.mpr hm
      exact h.ge (by omega) (by rwa [hr])
  case isFalse h0 =>
    have hcount : blockCount m = m.length / 16 + 1 := by
      rw [blockCount]
      omega
    have hpad := leVal_padBlock h
    have h5 := blockVal_ge m (by omega)
    have hhb : (0 : UInt64).toNat ≤ 2 ^ 24 := by simp
    have hmod := blockLimbs_val_mod h.carried h.r_below hhb (padBlock s)
    refine ⟨blockLimbs_carried h.carried h.r_below hhb _, ?_, fun hz => ?_, fun _ hr0 => ?_⟩
    · simp only [block]
      rw [hmod, rfcAcc, hcount, polyPrefix_succ, ← hr, hpad, Nat.mul_mod, UInt64.toNat_zero,
        Nat.mul_zero, Nat.add_zero, Nat.add_mod, h.val, ← Nat.add_mod, ← Nat.mul_mod]
    · have hr0 : rfcR key = 0 := hz.resolve_left fun hm => by simp [hm] at hbl; omega
      exact blockLimbs_val_zero h.carried h.r_below hhb _ (by rw [hr, hr0])
    · exact blockLimbs_val_ge h.carried h.r_below hhb _ (by rwa [hr]) (by rw [hpad]; omega)

theorem flush_pad (s : State) : (flush s).s0 = s.s0 ∧ (flush s).s1 = s.s1 := by
  rw [flush]
  split
  · exact ⟨rfl, rfl⟩
  · obtain ⟨r, h, s0, s1, b, n⟩ := s
    exact ⟨Eq.refl s0, Eq.refl s1⟩

/-- `finish` adds the pad to the carried accumulator, never reduced below `p`. -/
theorem Holds.finish_eq {key : Vector UInt8 32} {s : State} {m : List UInt8}
    (h : Holds key s m) : finish s = leBytes 16 (finalVal s + rfcS key) := by
  obtain ⟨p0, p1⟩ := flush_pad s
  have hbelow := carry_below h.flushed.carried
  have hlo := packLo_toNat hbelow
  have hhi := packHi_toNat hbelow
  simp only [finish, condSub_eq hbelow]
  rw [addPad_eq, hlo, hhi, p0, p1, h.s0, h.s1, init_pad]
  apply leBytes_congr
  rw [finalVal]
  omega

/-- The carried accumulator is the residue, or the residue plus `p` when that stays below
`2 ^ 130`. Which of the two depends only on whether a block was ever absorbed. -/
theorem Holds.finalVal_eq_iff {key : Vector UInt8 32} {s : State} {m : List UInt8}
    (h : Holds key s m) :
    (finalVal s = rfcAcc key m ↔ m = [] ∨ rfcR key = 0 ∨ 5 ≤ rfcAcc key m) ∧
      (finalVal s = rfcAcc key m ∨ finalVal s = rfcAcc key m + p) := by
  have hf := h.flushed
  have hmod : finalVal s % p = rfcAcc key m := (carry_val_mod hf.carried.below).trans hf.val
  obtain ⟨b0, b1, b2, b3, b4⟩ := carry_below hf.carried
  have hlt : finalVal s < 2 ^ 130 := by
    rw [finalVal, Limbs.val]
    omega
  have hcarry := (carry_spec hf.carried.below).2
  have hz : m = [] ∨ rfcR key = 0 → finalVal s = 0 := fun hz => by
    have h0 := hf.zero hz
    rw [finalVal]
    omega
  have hge : m ≠ [] → rfcR key ≠ 0 → 5 ≤ finalVal s := fun hm hr0 =>
    carry_val_ge hf.carried.below (hf.ge hm hr0)
  generalize rfcAcc key m = v at *
  generalize finalVal s = x at *
  simp only [p] at hmod ⊢
  refine ⟨⟨fun hx => ?_, ?_⟩, by omega⟩
  · by_contra hno
    push Not at hno
    have := hge hno.1 hno.2.1
    omega
  · rintro (hm | hr0 | h5)
    · have := hz (.inl hm)
      omega
    · have := hz (.inr hr0)
      omega
    · omega

/-! ## The tag -/

theorem Holds.finish_eq_rfcTag_iff {key : Vector UInt8 32} {s : State} {m : List UInt8}
    (h : Holds key s m) :
    finish s = rfcTag key m ↔ m = [] ∨ rfcR key = 0 ∨ 5 ≤ rfcAcc key m := by
  obtain ⟨hiff, hor⟩ := h.finalVal_eq_iff
  rw [← hiff, h.finish_eq, rfcTag]
  constructor
  · intro heq
    have hmod := leBytes_inj heq
    -- Adding `p` changes the value modulo `2 ^ 128`, so the second case is out.
    simp only [p] at hor
    omega
  · intro heq
    rw [heq]
    apply leBytes_congr
    omega

/-- **When the code computes the RFC 8439 tag.** However the message was cut, the tag is the
RFC's exactly when the message is empty, the clamped key is zero, or the residue of the message
polynomial is at least 5. -/
theorem tag_eq_rfcTag_iff (key : Vector UInt8 32) (chunks : List (List UInt8)) :
    tag key chunks = rfcTag key chunks.flatten ↔
      chunks.flatten = [] ∨ rfcR key = 0 ∨ 5 ≤ rfcAcc key chunks.flatten :=
  (holds_updates key chunks).finish_eq_rfcTag_iff

theorem zero_lt_keyLength : 0 < 32 := by decide

/-- The key with `r = 1` and `s = 0`. -/
def keyOne : Vector UInt8 32 := (Vector.replicate 32 0).set 0 1 zero_lt_keyLength

/-- Three blocks whose polynomial at 1 is exactly `p`. -/
def messageP : List UInt8 := [0xfb] ++ List.replicate 15 0xff ++ List.replicate 32 0

/-- Under `keyOne` the tag of `messageP` is that of `p`, where the RFC's is that of 0. -/
theorem tag_messageP_ne_rfcTag : tag keyOne [messageP] ≠ rfcTag keyOne [messageP].flatten := by
  have hacc : rfcAcc keyOne [messageP].flatten = 0 := by decide +kernel
  have hr : rfcR keyOne = 1 := by decide +kernel
  have hm : [messageP].flatten ≠ [] := by decide +kernel
  intro heq
  rw [tag, (holds_updates keyOne [messageP]).finish_eq_rfcTag_iff, hacc, hr] at heq
  rcases heq with heq | heq | heq
  · exact hm heq
  · exact absurd heq (by decide)
  · exact absurd heq (by decide)

end SneppxAlg.Poly1305
