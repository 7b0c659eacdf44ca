import SneppxAlg.Crypto.AesGcm
import SneppxAlg.Lib.BlockStream

/-!
# Where `aes_gcm.c` keeps its promise

The block cipher is one-to-one, although its rounds mix the words in another way than AES does, and
the counter takes 32 bits. So a piece that is encrypted from the first counter on comes out as in
one call exactly when it begins at a multiple of `2 ^ 36` bytes (`pieces_iff`). The multiplication
in `gcm_ghash` overwrites its second factor in every step, and what it leaves is nothing, the key or
the carry, by the bits that are set in the block (`ghashBlock_absorb`). A decryption hashes the
plaintext too, so whether it computes the tag of the encryption is read off the blocks (`TagKept`).
-/

namespace SneppxAlg.AesGcm

open Lib.BlockStream Lib.Bytes

/-! ## The block cipher -/

def memberBits (l : List ℕ) : ℕ := l.foldr (fun x bits => bits ||| 1 <<< x) 0

theorem mem_of_testBit {l : List ℕ} {j : ℕ} (h : (memberBits l).testBit j) : j ∈ l := by
  induction l with
  | nil => simp [memberBits] at h
  | cons x l ih =>
    rw [memberBits, List.foldr_cons, Nat.testBit_or, Bool.or_eq_true] at h
    obtain h | h := h
    · exact .tail _ (ih h)
    · rw [Nat.one_shiftLeft, Nat.testBit_two_pow, decide_eq_true_eq] at h
      exact h ▸ .head _

theorem subByte_injective : Function.Injective subByte := by
  have hbits : memberBits ((List.range 256).map fun i => (subByte (UInt8.ofNat i)).toNat) = 2 ^ 256 - 1 := by
    decide +kernel
  refine Finite.injective_iff_surjective.mpr fun b => ?_
  have hb : (2 ^ 256 - 1).testBit b.toNat := by
    rw [Nat.testBit_two_pow_sub_one, decide_eq_true_eq]
    exact b.toNat_lt
  obtain ⟨i, -, hi⟩ := List.mem_map.mp (mem_of_testBit (hbits ▸ hb))
  exact ⟨_, UInt8.toNat_inj.mp hi⟩

theorem toNat_load32 (b₀ b₁ b₂ b₃ : UInt8) : (load32 b₀ b₁ b₂ b₃).toNat =
    b₃.toNat + (b₂.toNat + (b₁.toNat + b₀.toNat * 2 ^ 8) * 2 ^ 8) * 2 ^ 8 := by
  have h₀ := b₀.toNat_lt
  have h₁ := b₁.toNat_lt
  have h₂ := b₂.toNat_lt
  have h₃ := b₃.toNat_lt
  rw [← or_shiftLeft_eq_add h₁, ← or_shiftLeft_eq_add h₂, ← or_shiftLeft_eq_add h₃]
  simp only [load32, UInt32.toNat_or, UInt32.toNat_shiftLeft, UInt8.toNat_toUInt32, UInt32.reduceToNat,
    Nat.reduceMod, Nat.shiftLeft_or_distrib, ← Nat.shiftLeft_add, Nat.reduceAdd]
  rw [Nat.mod_eq_of_lt (by rw [Nat.shiftLeft_eq]; omega), Nat.mod_eq_of_lt (by rw [Nat.shiftLeft_eq]; omega),
    Nat.mod_eq_of_lt (by rw [Nat.shiftLeft_eq]; omega), Nat.or_comm _ b₃.toNat, Nat.or_comm _ (b₂.toNat <<< 8),
    Nat.or_comm _ (b₁.toNat <<< 16)]

theorem store32_load32 (b₀ b₁ b₂ b₃ : UInt8) : store32 (load32 b₀ b₁ b₂ b₃) = [b₀, b₁, b₂, b₃] := by
  have h₀ := b₀.toNat_lt
  have h₁ := b₁.toNat_lt
  have h₂ := b₂.toNat_lt
  have h₃ := b₃.toNat_lt
  simp only [store32, List.cons.injEq, and_true, ← UInt8.toNat_inj, UInt32.toNat_toUInt8, UInt32.toNat_shiftRight,
    UInt32.reduceToNat, Nat.shiftRight_eq_div_pow, Nat.reduceMod, Nat.reducePow, toNat_load32]
  omega

theorem store32_injective : Function.Injective store32 := by
  intro v w h
  simp only [store32, List.cons.injEq, and_true, ← UInt8.toNat_inj, UInt32.toNat_toUInt8, UInt32.toNat_shiftRight,
    UInt32.reduceToNat, Nat.shiftRight_eq_div_pow, Nat.reduceMod, Nat.reducePow] at h
  have hv := v.toNat_lt
  have hw := w.toNat_lt
  exact UInt32.toNat_inj.mp (by omega)

theorem swapBytes_injective : Function.Injective swapBytes := by
  intro v w h
  have hbit : ∀ (x : UInt32) (i : ℕ), i < 32 →
      (swapBytes x).toBitVec.getLsbD (24 - 8 * (i / 8) + i % 8) = x.toBitVec.getLsbD i := by
    intro x i hi
    simp only [swapBytes, UInt32.toBitVec_or, UInt32.toBitVec_and, UInt32.toBitVec_shiftLeft, UInt32.toBitVec_shiftRight,
      UInt32.toBitVec_ofNat, BitVec.reduceMod, BitVec.ushiftRight_eq', BitVec.shiftLeft_eq', BitVec.toNat_ofNat,
      Nat.reducePow, Nat.reduceMod, BitVec.getLsbD_or, BitVec.getLsbD_and, BitVec.getLsbD_ushiftRight,
      BitVec.getLsbD_shiftLeft]
    interval_cases i <;> simp [-BitVec.getLsbD_eq_getElem]
  refine UInt32.toBitVec_inj.mp (BitVec.eq_of_getLsbD_eq fun i hi => ?_)
  rw [← hbit v i hi, ← hbit w i hi, h]
theorem eq_of_subBytes_eq {v w : UInt32} (h : ∀ k : Fin 4, subByte (v >>> UInt32.ofNat (8 * k)).toUInt8 =
    subByte (w >>> UInt32.ofNat (8 * k)).toUInt8) : v = w := by
  have h0 := congrArg UInt8.toNat (subByte_injective (h 0))
  have h1 := congrArg UInt8.toNat (subByte_injective (h 1))
  have h2 := congrArg UInt8.toNat (subByte_injective (h 2))
  have h3 := congrArg UInt8.toNat (subByte_injective (h 3))
  have hv := v.toNat_lt
  have hw := w.toNat_lt
  simp [Nat.shiftRight_eq_div_pow] at h0 h1 h2 h3
  exact UInt32.toNat_inj.mp (by omega)

theorem load32_inj {a₀ a₁ a₂ a₃ b₀ b₁ b₂ b₃ : UInt8} (h : load32 a₀ a₁ a₂ a₃ = load32 b₀ b₁ b₂ b₃) :
    a₀ = b₀ ∧ a₁ = b₁ ∧ a₂ = b₂ ∧ a₃ = b₃ := by
  have h := congrArg store32 h
  rw [store32_load32, store32_load32] at h
  simpa using h

theorem Words.eq_of_subWord_eq {s s' : Words} (h : ∀ i : Fin 4, s.subWord i = s'.subWord i) : s = s' := by
  have hword : ∀ v w : UInt32,
      load32 (subByte (v >>> UInt32.ofNat (8 * 0)).toUInt8) (subByte (v >>> UInt32.ofNat (8 * 1)).toUInt8)
        (subByte (v >>> UInt32.ofNat (8 * 2)).toUInt8) (subByte (v >>> UInt32.ofNat (8 * 3)).toUInt8) =
      load32 (subByte (w >>> UInt32.ofNat (8 * 0)).toUInt8) (subByte (w >>> UInt32.ofNat (8 * 1)).toUInt8)
        (subByte (w >>> UInt32.ofNat (8 * 2)).toUInt8) (subByte (w >>> UInt32.ofNat (8 * 3)).toUInt8) → v = w := by
    intro v w h
    obtain ⟨h0, h1, h2, h3⟩ := load32_inj h
    refine eq_of_subBytes_eq fun k => ?_
    fin_cases k
    · exact h0
    · exact h1
    · exact h2
    · exact h3
  obtain ⟨a0, a1, a2, a3⟩ := s
  obtain ⟨b0, b1, b2, b3⟩ := s'
  rw [hword a0 b0 (h 0), hword a1 b1 (h 1), hword a2 b2 (h 2), hword a3 b3 (h 3)]

theorem round_injective (rk : List UInt32) (r : ℕ) : Function.Injective fun s => round rk s r := by
  intro s s' h
  simp only [round, Words.mk.injEq, UInt32.xor_left_inj] at h
  obtain ⟨h0, h1, h2, h3⟩ := h
  rw [h0, UInt32.xor_left_inj] at h3
  rw [h3, UInt32.xor_left_inj] at h2
  rw [h2, UInt32.xor_left_inj] at h1
  rw [h1, UInt32.xor_left_inj] at h0
  refine Words.eq_of_subWord_eq fun i => ?_
  fin_cases i
  · exact swapBytes_injective h0
  · exact swapBytes_injective h1
  · exact swapBytes_injective h2
  · exact swapBytes_injective h3

theorem eq_of_blockWord_eq {b c : Block} (h : ∀ i, blockWord b i = blockWord c i) : b = c := by
  apply Vector.ext
  intro i hi
  obtain ⟨q, hq, hcase⟩ : ∃ q < 4, i = 4 * q ∨ i = 4 * q + 1 ∨ i = 4 * q + 2 ∨ i = 4 * q + 3 :=
    ⟨i / 4, by omega, by omega⟩
  obtain ⟨h0, h1, h2, h3⟩ := load32_inj (h ⟨q, hq⟩)
  obtain rfl | rfl | rfl | rfl := hcase
  · exact h0
  · exact h1
  · exact h2
  · exact h3

theorem foldl_round_injective (rk : List UInt32) (rs : List ℕ) :
    Function.Injective fun s => rs.foldl (round rk) s := by
  induction rs with
  | nil => exact Function.injective_id
  | cons r rs ih => exact ih.comp (round_injective rk r)

theorem toList_block {l : List UInt8} (hl : l.length = 16) :
    (Vector.ofFn fun i : Fin 16 => l.getD i 0).toList = l := by
  apply List.ext_getElem
  · rw [Vector.length_toList, hl]
  · intro i h₁ h₂
    simp [List.getElem?_eq_getElem h₂]

theorem length_store32 (w : UInt32) : (store32 w).length = 4 := rfl

theorem eq_of_flatMap_store32_eq {x y : ℕ → UInt32}
    (h : (List.range 4).flatMap (fun i => store32 (x i)) = (List.range 4).flatMap fun i => store32 (y i)) (i : Fin 4) :
    x i = y i := by
  have hlen : ∀ j, (store32 (x j)).length = (store32 (y j)).length := fun j => by
    rw [length_store32, length_store32]
  obtain ⟨h0, h⟩ := List.append_inj h (hlen 0)
  obtain ⟨h1, h⟩ := List.append_inj h (hlen 1)
  obtain ⟨h2, h⟩ := List.append_inj h (hlen 2)
  obtain ⟨h3, -⟩ := List.append_inj h (hlen 3)
  fin_cases i
  · exact store32_injective h0
  · exact store32_injective h1
  · exact store32_injective h2
  · exact store32_injective h3

theorem encryptBlock_injective (rk : List UInt32) : Function.Injective (encryptBlock rk) := by
  intro b c h
  have hlen : ∀ x : ℕ → UInt32, ((List.range 4).flatMap fun i => store32 (x i)).length = 16 := by
    intro x
    simp [List.length_flatMap, length_store32]
  have h := congrArg Vector.toList h
  unfold encryptBlock at h
  dsimp only at h
  rw [toList_block (hlen _), toList_block (hlen _)] at h
  have hstate := foldl_round_injective rk _ (Words.eq_of_subWord_eq fun i =>
    (UInt32.xor_left_inj _).mp (eq_of_flatMap_store32_eq h i))
  simp only [Words.mk.injEq, UInt32.xor_left_inj] at hstate
  refine eq_of_blockWord_eq fun i => ?_
  fin_cases i
  · exact hstate.1
  · exact hstate.2.1
  · exact hstate.2.2.1
  · exact hstate.2.2.2
/-! ## The counter -/

/-- The block of the nonce and the four bytes `t`. -/
def nonceBlock (iv : Iv) (t : List UInt8) : Block := Vector.ofFn fun i => (iv.toList ++ t).getD i 0

theorem load32_succ (b₀ b₁ b₂ b₃ : UInt8) : load32 b₀ b₁ b₂ b₃ + 1 =
    if b₃ + 1 ≠ 0 then load32 b₀ b₁ b₂ (b₃ + 1)
    else if b₂ + 1 ≠ 0 then load32 b₀ b₁ (b₂ + 1) 0
    else if b₁ + 1 ≠ 0 then load32 b₀ (b₁ + 1) 0 0
    else load32 (b₀ + 1) 0 0 0 := by
  have h₀ := b₀.toNat_lt
  have h₁ := b₁.toNat_lt
  have h₂ := b₂.toNat_lt
  have h₃ := b₃.toNat_lt
  simp only [ne_eq, ← UInt8.toNat_inj, UInt8.toNat_add, UInt8.reduceToNat]
  apply UInt32.toNat_inj.mp
  split_ifs <;>
  · simp only [UInt32.toNat_add, toNat_load32, UInt8.toNat_add, UInt8.reduceToNat, UInt32.reduceToNat]
    omega

theorem store32_succ (c : UInt32) : store32 (c + 1) =
    if c.toUInt8 + 1 ≠ 0 then [(c >>> 24).toUInt8, (c >>> 16).toUInt8, (c >>> 8).toUInt8, c.toUInt8 + 1]
    else if (c >>> 8).toUInt8 + 1 ≠ 0 then [(c >>> 24).toUInt8, (c >>> 16).toUInt8, (c >>> 8).toUInt8 + 1, 0]
    else if (c >>> 16).toUInt8 + 1 ≠ 0 then [(c >>> 24).toUInt8, (c >>> 16).toUInt8 + 1, 0, 0]
    else [(c >>> 24).toUInt8 + 1, 0, 0, 0] := by
  have hc : load32 (c >>> 24).toUInt8 (c >>> 16).toUInt8 (c >>> 8).toUInt8 c.toUInt8 = c :=
    store32_injective (store32_load32 _ _ _ _)
  conv_lhs => rw [← hc, load32_succ]
  split_ifs <;> exact store32_load32 _ _ _ _
/-- A step of `inc32`. -/
def incStep (s : Block × Bool) (i : Fin 16) : Block × Bool :=
  if s.2 then s
  else
    let b := s.1.get i + 1
    (s.1.set i b (lt_sixteen i), b != 0)

theorem incStep_done (b : Block) (i : Fin 16) : incStep (b, true) i = (b, true) := rfl

theorem incStep_nonceBlock (iv : Iv) {t : List UInt8} (ht : t.length = 4) {i : Fin 16} {k : ℕ} (hi : i.val = 12 + k) :
    incStep (nonceBlock iv t, false) i =
      (nonceBlock iv (t.set k (t.getD k 0 + 1)), t.getD k 0 + 1 != 0) := by
  have hlen : iv.toList.length = 12 := Vector.length_toList
  have hget : (nonceBlock iv t).get i = t.getD k 0 := by
    rw [nonceBlock, Vector.get_eq_getElem, Vector.getElem_ofFn]
    show (iv.toList ++ t).getD i.val 0 = _
    rw [hi, List.getD_append_right _ _ _ _ (by omega), hlen, Nat.add_sub_cancel_left]
  have hset : ∀ b, (nonceBlock iv t).set i b (lt_sixteen i) = nonceBlock iv (t.set k b) := by
    intro b
    apply Vector.ext
    intro j hj
    rw [Vector.getElem_set, nonceBlock, nonceBlock, Vector.getElem_ofFn, Vector.getElem_ofFn]
    show (if i.val = j then b else (iv.toList ++ t).getD j 0) = (iv.toList ++ t.set k b).getD j 0
    have hk : k < 4 := by omega
    rw [show iv.toList ++ t.set k b = (iv.toList ++ t).set (12 + k) b by
        rw [List.set_append_right _ _ (by omega), hlen, Nat.add_sub_cancel_left],
      List.getD_eq_getElem?_getD (l := (iv.toList ++ t).set _ _), List.getElem?_set, List.length_append, hlen, ht, hi]
    split_ifs
    · rfl
    · omega
    · exact List.getD_eq_getElem?_getD
  rw [incStep, if_neg Bool.false_ne_true]
  dsimp only
  rw [hset, hget]

theorem inc32_eq (b : Block) : inc32 b = (incStep (incStep (incStep (incStep (b, false) 15) 14) 13) 12).1 := by
  simp only [inc32, List.foldl_cons, List.foldl_nil, incStep]

theorem inc32_nonceBlock (iv : Iv) (c : UInt32) :
    inc32 (nonceBlock iv (store32 c)) = nonceBlock iv (store32 (c + 1)) := by
  rw [inc32_eq, store32_succ, incStep_nonceBlock iv (length_store32 c) (k := 3) rfl]
  show (incStep (incStep (incStep (nonceBlock iv [_, _, _, c.toUInt8 + 1], c.toUInt8 + 1 != 0) 14) 13) 12).1 = _
  by_cases h0 : c.toUInt8 + 1 = 0
  · rw [if_neg (not_not.mpr h0), h0, bne_self_eq_false, incStep_nonceBlock iv rfl (k := 2) rfl]
    show (incStep (incStep (nonceBlock iv [_, _, (c >>> 8).toUInt8 + 1, 0], (c >>> 8).toUInt8 + 1 != 0) 13) 12).1 = _
    by_cases h1 : (c >>> 8).toUInt8 + 1 = 0
    · rw [if_neg (not_not.mpr h1), h1, bne_self_eq_false, incStep_nonceBlock iv rfl (k := 1) rfl]
      show (incStep (nonceBlock iv [_, (c >>> 16).toUInt8 + 1, 0, 0], (c >>> 16).toUInt8 + 1 != 0) 12).1 = _
      by_cases h2 : (c >>> 16).toUInt8 + 1 = 0
      · rw [if_neg (not_not.mpr h2), h2, bne_self_eq_false, incStep_nonceBlock iv rfl (k := 0) rfl]
        rfl
      · rw [if_pos h2, bne_iff_ne.mpr h2, incStep_done]
    · rw [if_pos h1, bne_iff_ne.mpr h1, incStep_done, incStep_done]
  · rw [if_pos h0, bne_iff_ne.mpr h0, incStep_done, incStep_done, incStep_done]
/-! ## The hash -/

/-- The block with `0xE1` in its last byte. -/
def carryBlock : Block := (Vector.replicate 16 0).set 15 0xE1 fifteen_lt_sixteen

theorem neZero_sixteen : NeZero 16 := ⟨by decide⟩

attribute [local instance] neZero_sixteen in
def topBit (b : Block) : Bool := (b.get 0 >>> 7) &&& 1 != 0

/-- Bit `k` of a block, the highest bit of the first byte first. -/
def blockBit (y : Block) (k : ℕ) : Bool := (y.toList.getD (k / 8) 0 >>> UInt8.ofNat (7 - k % 8)) &&& 1 != 0

theorem shiftLeft_snd (hh : Block) : (shiftLeft hh).2 = (hh.get 0 >>> 7) &&& 1 := by
  have hkeep : ∀ (l : List (Fin 16)) (s : Block × UInt8), (0 : Fin 16) ∉ l →
      (l.foldl (fun (s : Block × UInt8) (j : Fin 16) =>
        (s.1.set j (((s.1.get j) <<< 1) ||| s.2) (lt_sixteen j), ((s.1.get j) >>> 7) &&& 1)) s).1.get 0 = s.1.get 0 := by
    intro l
    induction l with
    | nil => exact fun s _ => rfl
    | cons j l ih =>
      intro s hl
      simp only [List.mem_cons, not_or] at hl
      obtain ⟨hj, hl⟩ := hl
      rw [List.foldl_cons, ih _ hl, Vector.get_eq_getElem, Vector.get_eq_getElem,
        Vector.getElem_set_ne _ _ fun h => hj (Fin.ext h.symm)]
      rfl
  have hlist : (List.finRange 16).reverse = (List.finRange 16).reverse.dropLast ++ [0] := by decide
  have hnot : (0 : Fin 16) ∉ (List.finRange 16).reverse.dropLast := by decide
  rw [shiftLeft, hlist, List.foldl_append, List.foldl_cons, List.foldl_nil]
  dsimp only
  rw [hkeep _ _ hnot]

/-- A step of the multiplication, from `z` and `hh`. -/
def mulStep (bit : Bool) (z hh : Block) : Block :=
  let z := if bit then xorBlock z hh else z
  if topBit hh then xorBlock z carryBlock else z

theorem xorBlock_carryBlock (z : Block) : xorBlock z carryBlock = z.set 15 (z.get 15 ^^^ 0xE1) fifteen_lt_sixteen := by
  apply Vector.ext
  intro i hi
  rw [xorBlock, carryBlock, Vector.getElem_zipWith, Vector.getElem_set, Vector.getElem_set, Vector.getElem_replicate,
    Vector.get_eq_getElem]
  split_ifs with h
  · subst h
    rfl
  · exact UInt8.xor_zero

theorem xorBlock_self (z : Block) : xorBlock z z = Vector.replicate 16 0 := by
  apply Vector.ext
  intro i hi
  rw [xorBlock, Vector.getElem_zipWith, Vector.getElem_replicate]
  exact UInt8.xor_self

theorem ghashBlock_eq (h y x : Block) :
    ghashBlock h y x = (((List.range 128).map (blockBit (xorBlock y x))).foldl
      (fun (s : Block × Block) bit => (mulStep bit s.1 s.2, mulStep bit s.1 s.2)) (Vector.replicate 16 0, h)).1 := by
  rw [ghashBlock, List.foldl_map]
  dsimp only
  congr 1
  refine List.foldl_ext _ _ _ fun s k _ => ?_
  rw [shiftLeft_snd]
  simp only [mulStep, blockBit, topBit, bne_iff_ne, ne_eq, xorBlock_carryBlock]

/-- The steps behind the first one, where `hh` is `z`. -/
def spin (bits : List Bool) (z : Block) : Block := bits.foldl (fun z bit => mulStep bit z z) z

theorem foldl_mulStep (bits : List Bool) (z : Block) :
    bits.foldl (fun (s : Block × Block) bit => (mulStep bit s.1 s.2, mulStep bit s.1 s.2)) (z, z) =
      (spin bits z, spin bits z) := by
  induction bits generalizing z with
  | nil => rfl
  | cons bit bits ih => exact ih _

theorem topBit_carryBlock : topBit carryBlock = false := by decide

theorem topBit_zero : topBit (Vector.replicate 16 0) = false := by decide

theorem zero_xorBlock (z : Block) : xorBlock (Vector.replicate 16 0) z = z := by
  apply Vector.ext
  intro i hi
  rw [xorBlock, Vector.getElem_zipWith, Vector.getElem_replicate]
  exact UInt8.zero_xor

theorem xorBlock_xorBlock (z w : Block) : xorBlock (xorBlock z w) w = z := by
  apply Vector.ext
  intro i hi
  rw [xorBlock, xorBlock, Vector.getElem_zipWith, Vector.getElem_zipWith, UInt8.xor_assoc, UInt8.xor_self, UInt8.xor_zero]

theorem topBit_xorBlock_carryBlock (z : Block) : topBit (xorBlock z carryBlock) = topBit z := by
  have hget : (xorBlock z carryBlock).get 0 = z.get 0 := by
    rw [xorBlock_carryBlock, Vector.get_eq_getElem, Vector.get_eq_getElem, Vector.getElem_set_ne _ _ (by decide)]
    rfl
  rw [topBit, topBit, hget]

theorem mulStep_of_not_topBit {z : Block} (hz : topBit z = false) (bit : Bool) :
    mulStep bit z z = if bit then Vector.replicate 16 0 else z := by
  simp [mulStep, hz, xorBlock_self]

theorem spin_of_not_topBit {z : Block} (hz : topBit z = false) (bits : List Bool) :
    spin bits z = if bits.count true = 0 then z else Vector.replicate 16 0 := by
  induction bits generalizing z with
  | nil => rfl
  | cons bit bits ih =>
    show spin bits (mulStep bit z z) = _
    rw [mulStep_of_not_topBit hz]
    cases bit with
    | false => simpa using ih hz
    | true => simp [ih topBit_zero]

/-- While no bit is set, the carry is added in every step. -/
theorem spin_of_topBit {z : Block} (hz : topBit z = true) (bits : List Bool) :
    spin bits z = if bits.count true = 0 then if bits.length % 2 = 0 then z else xorBlock z carryBlock
      else if bits.count true = 1 then carryBlock else Vector.replicate 16 0 := by
  induction bits generalizing z with
  | nil => rfl
  | cons bit bits ih =>
    show spin bits (mulStep bit z z) = _
    cases bit with
    | false =>
      have hstep : mulStep false z z = xorBlock z carryBlock := by simp [mulStep, hz]
      rw [hstep, ih (by rwa [topBit_xorBlock_carryBlock]), xorBlock_xorBlock, List.length_cons]
      simp only [List.count_cons, beq_iff_eq, Bool.false_eq_true, if_false, add_zero]
      have := Nat.mod_two_eq_zero_or_one bits.length
      split_ifs <;> first | rfl | omega
    | true =>
      have hstep : mulStep true z z = carryBlock := by simp [mulStep, hz, xorBlock_self, zero_xorBlock]
      rw [hstep, spin_of_not_topBit topBit_carryBlock]
      simp

/-- What the hash can hold behind a block. -/
inductive Acc where
  | zero
  | key
  | carry

def Acc.block (h : Block) : Acc → Block
  | .zero => Vector.replicate 16 0
  | .key => h
  | .carry => carryBlock

def bitCount (v : Block) : ℕ := ((List.range 128).map (blockBit v)).count true

/-- What the hash with the key `h` makes of a block. -/
def absorb (h v : Block) : Acc :=
  if blockBit v 0 ∧ bitCount v = 1 then .key
  else if topBit h ∧ (bitCount v = 0 ∨ blockBit v 0 ∧ bitCount v = 2) then .carry
  else .zero

theorem ghashBlock_absorb (h y x : Block) : ghashBlock h y x = (absorb h (xorBlock y x)).block h := by
  generalize hv : xorBlock y x = v
  have hbits : (List.range 128).map (blockBit v) = blockBit v 0 :: (List.range' 1 127).map (blockBit v) := by
    rw [List.range_eq_range', List.range'_succ, List.map_cons]
  have hlen : ((List.range' 1 127).map (blockBit v)).length % 2 = 1 := by
    rw [List.length_map, List.length_range']
  have hcount : bitCount v = ((List.range' 1 127).map (blockBit v)).count true + if blockBit v 0 then 1 else 0 := by
    rw [bitCount, hbits, List.count_cons]
    simp
  rw [ghashBlock_eq, hv, hbits, List.foldl_cons, foldl_mulStep, absorb, hcount]
  generalize (List.range' 1 127).map (blockBit v) = bits at hlen
  cases hbit : blockBit v 0 <;> cases htop : topBit h
  · have hz : mulStep false (Vector.replicate 16 0) h = Vector.replicate 16 0 := by simp [mulStep, htop]
    simp [hz, spin_of_not_topBit topBit_zero, Acc.block]
  · have hz : mulStep false (Vector.replicate 16 0) h = carryBlock := by simp [mulStep, htop, zero_xorBlock]
    rw [hz, spin_of_not_topBit topBit_carryBlock]
    split_ifs <;> simp_all [Acc.block]
  · have hz : mulStep true (Vector.replicate 16 0) h = h := by simp [mulStep, htop, zero_xorBlock]
    rw [hz, spin_of_not_topBit htop]
    split_ifs <;> simp_all [Acc.block]
  · have hz : mulStep true (Vector.replicate 16 0) h = xorBlock h carryBlock := by
      simp [mulStep, htop, zero_xorBlock]
    rw [hz, spin_of_topBit (by rwa [topBit_xorBlock_carryBlock]), xorBlock_xorBlock, hlen]
    split_ifs <;> simp_all [Acc.block]

/-! ## Whole blocks -/

def hash (h y : Block) (x : List UInt8) : Block :=
  (run (fun y b => ghashBlock h y (Vector.ofFn fun j => b.getD j 0)) 16 y x).1

theorem hash_nil (h y : Block) : hash h y [] = y := by
  rw [hash, run_of_lt (by decide)]

theorem hash_append (h y : Block) {a : List UInt8} (ha : 16 ∣ a.length) (b : List UInt8) :
    hash h y (a ++ b) = hash h (hash h y a) b := by
  have hrest : ∀ f : Block → List UInt8 → Block, (run f 16 y a).2 = [] := fun f =>
    List.length_eq_zero_iff.mp (by rw [length_run_snd, Nat.mod_eq_zero_of_dvd ha])
  rw [hash, run_append, hrest, List.nil_append]
  rfl

theorem foldlM_eq_some {S α : Type*} {f : S → α → Option S} {g : S → α → S} {l : List α}
    (h : ∀ s, ∀ a ∈ l, f s a = some (g s a)) (s : S) : l.foldlM f s = some (l.foldl g s) := by
  induction l generalizing s with
  | nil => rfl
  | cons a l ih =>
    rw [List.foldlM_cons, h s a (.head _)]
    exact ih (fun s b hb => h s b (.tail _ hb)) _

/-- `gcm_ghash` reads past the end of its input unless that is a number of whole blocks. -/
theorem gcmGhash_eq (y h : Block) (x : List UInt8) :
    gcmGhash y h x = if 16 ∣ x.length then some (hash h y x) else none := by
  have hread : ∀ i < x.length / 16, readBlock x (16 * i) =
      some (Vector.ofFn fun j => ((x.drop (i * 16)).take 16).getD j 0) := by
    intro i hi
    rw [readBlock, if_pos (by omega)]
    congr 2
    funext j
    rw [List.getD_eq_getElem?_getD, List.getD_eq_getElem?_getD, List.getElem?_take_of_lt j.isLt, List.getElem?_drop,
      Nat.mul_comm]
  have hmap : ∀ y, ∀ i ∈ List.range (x.length / 16),
      (readBlock x (16 * i)).map (fun b => ghashBlock h y b) =
        some (ghashBlock h y (Vector.ofFn fun j => ((x.drop (i * 16)).take 16).getD j 0)) := fun y i hi => by
    rw [hread i (List.mem_range.mp hi), Option.map_some]
  rw [gcmGhash]
  split_ifs with hdvd
  · rw [show (x.length + 15) / 16 = x.length / 16 by omega, foldlM_eq_some hmap, hash, run_fst (by decide), blocks,
      List.foldl_map]
  · have hlast : readBlock x (16 * (x.length / 16)) = none := by
      rw [readBlock, if_neg (by omega)]
    rw [show (x.length + 15) / 16 = x.length / 16 + 1 by omega, List.range_succ, List.foldlM_append,
      foldlM_eq_some hmap]
    simp [hlast]

/-! ## The calls -/

def Context.addAad (ctx : Context) (aad : List UInt8) : Context :=
  { ctx with aadLen := ctx.aadLen + UInt64.ofNat aad.length, y := hash ctx.h ctx.y aad }

def Context.addCrypt (ctx : Context) (ct : List UInt8) : Context :=
  { ctx with cryptLen := ctx.cryptLen + UInt64.ofNat ct.length, y := hash ctx.h ctx.y ct }

theorem Context.addAad_nil (ctx : Context) : ctx.addAad [] = ctx := by
  simp [Context.addAad, hash_nil]

theorem Context.addCrypt_nil (ctx : Context) : ctx.addCrypt [] = ctx := by
  simp [Context.addCrypt, hash_nil]

theorem Context.addAad_append (ctx : Context) {a : List UInt8} (ha : 16 ∣ a.length) (b : List UInt8) :
    ctx.addAad (a ++ b) = (ctx.addAad a).addAad b := by
  simp [Context.addAad, hash_append _ _ ha, UInt64.ofNat_add, UInt64.add_assoc]

theorem Context.addCrypt_append (ctx : Context) {a : List UInt8} (ha : 16 ∣ a.length) (b : List UInt8) :
    ctx.addCrypt (a ++ b) = (ctx.addCrypt a).addCrypt b := by
  simp [Context.addCrypt, hash_append _ _ ha, UInt64.ofNat_add, UInt64.add_assoc]

theorem updateAad_eq (ctx : Context) (aad : List UInt8) :
    updateAad ctx aad = if 16 ∣ aad.length then some (ctx.addAad aad) else none := by
  rw [updateAad]
  split_ifs with h h16 h16
  · rw [List.length_eq_zero_iff.mp h, Context.addAad_nil]
  · exact absurd (h ▸ Nat.dvd_zero 16) h16
  · rw [gcmGhash_eq, if_pos h16]
    rfl
  · rw [gcmGhash_eq, if_neg h16, Option.map_none]

theorem encrypt_eq (ctx : Context) (pt : List UInt8) : encrypt ctx pt =
    if 16 ∣ pt.length then some (ctx.addCrypt (crypt ctx pt), crypt ctx pt) else none := by
  rw [encrypt]
  split_ifs with h h16 h16
  · rw [List.length_eq_zero_iff.mp h]
    show _ = some (ctx.addCrypt [], [])
    rw [Context.addCrypt_nil]
  · exact absurd (h ▸ Nat.dvd_zero 16) h16
  · dsimp only
    rw [gcmGhash_eq, length_crypt, if_pos h16, Context.addCrypt, length_crypt]
    rfl
  · dsimp only
    rw [gcmGhash_eq, length_crypt, if_neg h16, Option.map_none]

theorem decrypt_eq (ctx : Context) (ct : List UInt8) : decrypt ctx ct =
    if 16 ∣ ct.length then some ((ctx.addCrypt ct).addCrypt (crypt ctx ct), crypt ctx ct) else none := by
  rw [decrypt, gcmGhash_eq]
  split_ifs with h16
  · show encrypt (ctx.addCrypt ct) ct = _
    rw [encrypt_eq, if_pos h16]
    rfl
  · rfl

theorem foldlM_updateAad (ctx : Context) (aads : List (List UInt8)) :
    aads.foldlM updateAad ctx = if ∀ a ∈ aads, 16 ∣ a.length then some (ctx.addAad aads.flatten) else none := by
  induction aads generalizing ctx with
  | nil => simp [Context.addAad_nil]
  | cons a aads ih =>
    rw [List.foldlM_cons, updateAad_eq]
    by_cases ha : 16 ∣ a.length
    · rw [if_pos ha]
      show aads.foldlM updateAad (ctx.addAad a) = _
      rw [ih, List.flatten_cons, Context.addAad_append _ ha]
      simp [ha]
    · simp [ha]

theorem dvd_length_flatten {l : List (List UInt8)} (h : ∀ a ∈ l, 16 ∣ a.length) : 16 ∣ l.flatten.length := by
  rw [List.length_flatten]
  exact List.dvd_sum fun n hn => by
    obtain ⟨a, ha, rfl⟩ := List.mem_map.mp hn
    exact h a ha

theorem calls_encrypt (ctx : Context) (pts : List (List UInt8)) :
    calls encrypt ctx pts = if ∀ p ∈ pts, 16 ∣ p.length then
      some (ctx.addCrypt (pts.map (crypt ctx)).flatten, (pts.map (crypt ctx)).flatten) else none := by
  have hacc : ∀ (c : Context) (out : List UInt8), (∀ x, crypt c x = crypt ctx x) →
      pts.foldlM (fun s p => (encrypt s.1 p).map fun r => (r.1, s.2 ++ r.2)) (c, out) =
        if ∀ p ∈ pts, 16 ∣ p.length then
          some (c.addCrypt (pts.map (crypt ctx)).flatten, out ++ (pts.map (crypt ctx)).flatten) else none := by
    induction pts with
    | nil => exact fun c out _ => by simp [Context.addCrypt_nil]
    | cons p pts ih =>
      intro c out hc
      rw [List.foldlM_cons, encrypt_eq]
      by_cases hp : 16 ∣ p.length
      · rw [if_pos hp]
        show pts.foldlM _ (c.addCrypt (crypt c p), out ++ crypt c p) = _
        rw [ih (c.addCrypt (crypt c p)) (out ++ crypt c p) hc, List.map_cons, List.flatten_cons, hc,
          Context.addCrypt_append _ (by rwa [length_crypt])]
        simp [hp]
      · simp [hp]
  rw [calls, hacc ctx [] fun _ => rfl, List.nil_append]

/-- The tag that `finalize` computes. -/
def tagOf (ctx : Context) : Block :=
  xorBlock (encryptBlock ctx.rk ctx.j0) (hash ctx.h ctx.y (gcmLenBlock ctx.aadLen ctx.cryptLen))

theorem finalize_eq (ctx : Context) : finalize ctx = some (tagOf ctx) := by
  have hlen : (gcmLenBlock ctx.aadLen ctx.cryptLen).length = 16 := by simp [gcmLenBlock]
  rw [finalize, gcmGhash_eq, hlen, if_pos dvd_rfl]
  rfl

theorem process_encrypt (key : Key) (iv : Iv) (aads pts : List (List UInt8)) :
    process encrypt key iv aads pts = if ∀ p ∈ aads ++ pts, 16 ∣ p.length then
      some ((pts.map (crypt (init key iv))).flatten,
        tagOf (((init key iv).addAad aads.flatten).addCrypt (pts.map (crypt (init key iv))).flatten)) else none := by
  rw [process, foldlM_updateAad]
  by_cases ha : ∀ a ∈ aads, 16 ∣ a.length
  · rw [if_pos ha, Option.bind_eq_bind, Option.bind_some, calls_encrypt]
    by_cases hp : ∀ p ∈ pts, 16 ∣ p.length
    · rw [if_pos hp, if_pos fun p h => (List.mem_append.mp h).elim (ha p) (hp p)]
      simp only [Option.bind_eq_bind, Option.bind_some, finalize_eq]
      rfl
    · rw [if_neg hp, if_neg fun h => hp fun p h' => h p (List.mem_append_right _ h')]
      rfl
  · rw [if_neg ha, if_neg fun h => ha fun p h' => h p (List.mem_append_left _ h')]
    rfl

theorem process_decrypt (key : Key) (iv : Iv) (aad ct : List UInt8) :
    process decrypt key iv [aad] [ct] = if 16 ∣ aad.length ∧ 16 ∣ ct.length then
      some (crypt (init key iv) ct, tagOf ((((init key iv).addAad aad).addCrypt ct).addCrypt (crypt (init key iv) ct)))
      else none := by
  rw [process, foldlM_updateAad, List.flatten_singleton]
  by_cases ha : 16 ∣ aad.length
  · rw [if_pos (by simpa using ha), Option.bind_eq_bind, Option.bind_some, calls, List.foldlM_cons, decrypt_eq]
    by_cases hc : 16 ∣ ct.length
    · rw [if_pos hc, if_pos ⟨ha, hc⟩]
      simp only [Option.bind_eq_bind, Option.map_some, List.foldlM_nil, Option.pure_def, Option.bind_some, finalize_eq]
      rfl
    · rw [if_neg hc, if_neg fun h => hc h.2]
      rfl
  · rw [if_neg (by simpa using ha), if_neg fun h => ha h.1]
    rfl

/-! ## The pieces -/

theorem inc32_iterate (iv : Iv) (c : UInt32) (n : ℕ) :
    inc32^[n] (nonceBlock iv (store32 c)) = nonceBlock iv (store32 (c + UInt32.ofNat n)) := by
  induction n with
  | zero => simp
  | succ n ih => rw [Function.iterate_succ_apply', ih, inc32_nonceBlock, UInt32.add_assoc, UInt32.ofNat_add]; rfl

theorem nonceBlock_inj {iv : Iv} {v w : UInt32} :
    nonceBlock iv (store32 v) = nonceBlock iv (store32 w) ↔ v = w := by
  refine ⟨fun h => ?_, fun h => h ▸ rfl⟩
  have hlen : ∀ x, (iv.toList ++ store32 x).length = 16 := fun x => by
    rw [List.length_append, length_store32, Vector.length_toList]
  have h := congrArg Vector.toList h
  rw [nonceBlock, nonceBlock, toList_block (hlen v), toList_block (hlen w)] at h
  exact store32_injective (List.append_cancel_left h)

/-- The key stream from block `k` on. -/
def stream (ctx : Context) (k n : ℕ) : List UInt8 :=
  (List.range n).flatMap fun i => (encryptBlock ctx.rk (inc32^[k + i + 1] ctx.j0)).toList

theorem length_stream (ctx : Context) (k n : ℕ) : (stream ctx k n).length = n * 16 := by
  simp [stream, List.length_flatMap]

theorem stream_add (ctx : Context) (k m n : ℕ) : stream ctx k (m + n) = stream ctx k m ++ stream ctx (k + m) n := by
  rw [stream, List.range_add, List.flatMap_append, List.flatMap_map]
  simp only [stream, Nat.add_assoc]

/-- The data against the key stream from block `k` on. -/
def cryptFrom (ctx : Context) (k : ℕ) (data : List UInt8) : List UInt8 :=
  xorBytes data (stream ctx k ((data.length + 15) / 16))

theorem length_cryptFrom (ctx : Context) (k : ℕ) (data : List UInt8) :
    (cryptFrom ctx k data).length = data.length :=
  length_xorBytes (by rw [length_stream]; omega)

theorem crypt_eq (ctx : Context) (data : List UInt8) : crypt ctx data = cryptFrom ctx 0 data := by
  have hstream : keyStream ctx data.length = stream ctx 0 ((data.length + 15) / 16) := by
    simp only [keyStream, counters, stream, List.flatMap_map, Nat.zero_add]
  rw [crypt, hstream]
  rfl

theorem cryptFrom_append (ctx : Context) (k : ℕ) {a : List UInt8} (ha : 16 ∣ a.length) (b : List UInt8) :
    cryptFrom ctx k (a ++ b) = cryptFrom ctx k a ++ cryptFrom ctx (k + a.length / 16) b := by
  have hlen : ((a ++ b).length + 15) / 16 = a.length / 16 + (b.length + 15) / 16 := by
    rw [List.length_append]
    omega
  have haa : (a.length + 15) / 16 = a.length / 16 := by omega
  rw [cryptFrom, hlen, stream_add, cryptFrom, cryptFrom, haa, xorBytes,
    List.zipWith_append (by rw [length_stream]; omega)]
  rfl

section Nonce

variable {ctx : Context} {iv : Iv} (hj0 : ctx.j0 = nonceBlock iv (store32 1))
include hj0

/-- The counters repeat after `2 ^ 32` blocks, and not before. -/
theorem inc32_iterate_eq_iff (m n : ℕ) : inc32^[m] ctx.j0 = inc32^[n] ctx.j0 ↔ m % 2 ^ 32 = n % 2 ^ 32 := by
  rw [hj0, inc32_iterate, inc32_iterate, nonceBlock_inj, UInt32.add_right_inj, ← UInt32.toNat_inj, UInt32.toNat_ofNat',
    UInt32.toNat_ofNat']

theorem cryptFrom_eq_iff (k : ℕ) {data : List UInt8} (h16 : 16 ∣ data.length) :
    cryptFrom ctx 0 data = cryptFrom ctx k data ↔ (data ≠ [] → 2 ^ 32 ∣ k) := by
  constructor
  · intro h hne
    have hpos : 0 < data.length := List.length_pos_iff.mpr hne
    have hlen : (data.take 16).length = 16 := by
      rw [List.length_take]
      omega
    have hdvd : 16 ∣ (data.take 16).length := by rw [hlen]
    rw [← List.take_append_drop 16 data, cryptFrom_append _ _ hdvd, cryptFrom_append _ _ hdvd] at h
    have hfirst := (List.append_inj h (by rw [length_cryptFrom, length_cryptFrom])).1
    have hblock : ∀ k, xorBytes (cryptFrom ctx k (data.take 16)) (data.take 16) =
        (encryptBlock ctx.rk (inc32^[k + 1] ctx.j0)).toList := by
      intro k
      have hstream : stream ctx k 1 = (encryptBlock ctx.rk (inc32^[k + 1] ctx.j0)).toList := by simp [stream]
      have hcomm : ∀ s, xorBytes (data.take 16) s = xorBytes s (data.take 16) := fun s =>
        List.zipWith_comm_of_comm UInt8.xor_comm
      rw [cryptFrom, hlen, hstream, hcomm]
      exact xorBytes_xorBytes (by rw [hlen, Vector.length_toList])
    have hcipher := (hblock 0).symm.trans ((congrArg (fun x => xorBytes x (data.take 16)) hfirst).trans (hblock k))
    have hcounter := encryptBlock_injective _ (Vector.toList_inj.mp hcipher)
    have := (inc32_iterate_eq_iff hj0 _ _).mp hcounter
    omega
  · intro h
    by_cases hne : data = []
    · simp [hne, cryptFrom, xorBytes]
    · have hrepeat : ∀ i, inc32^[k + i + 1] ctx.j0 = inc32^[0 + i + 1] ctx.j0 := fun i =>
        (inc32_iterate_eq_iff hj0 _ _).mpr (by have := h hne; omega)
      simp only [cryptFrom, stream, hrepeat]

/-- Pieces are encrypted as the whole exactly when the counter is where it began whenever one of them begins. -/
theorem pieces_iff (k : ℕ) {pts : List (List UInt8)} (h16 : ∀ p ∈ pts, 16 ∣ p.length) :
    (pts.map (crypt ctx)).flatten = cryptFrom ctx k pts.flatten ↔
      ∀ l p r, pts = l ++ p :: r → p ≠ [] → 2 ^ 32 ∣ k + l.flatten.length / 16 := by
  induction pts generalizing k with
  | nil =>
    refine iff_of_true (by simp [cryptFrom, xorBytes]) fun l p r h => ?_
    simp at h
  | cons p pts ih =>
    have hp := h16 p (.head _)
    have hsplit : ∀ a b c d : List UInt8, a.length = c.length → (a ++ b = c ++ d ↔ a = c ∧ b = d) :=
      fun a b c d hlen => ⟨fun h => List.append_inj h hlen, fun h => by rw [h.1, h.2]⟩
    rw [List.map_cons, List.flatten_cons, List.flatten_cons, cryptFrom_append _ _ hp, crypt_eq,
      hsplit _ _ _ _ (by rw [length_cryptFrom, length_cryptFrom]), ih _ fun q hq => h16 q (.tail _ hq),
      cryptFrom_eq_iff hj0 k hp]
    constructor
    · rintro ⟨hfirst, hrest⟩ l q r h hq
      obtain _ | ⟨a, l⟩ := l
      · obtain ⟨rfl, -⟩ : p = q ∧ pts = r := by simpa using h
        simpa using hfirst hq
      · obtain ⟨rfl, hpts⟩ : p = a ∧ pts = l ++ q :: r := by simpa using h
        have := hrest l q r hpts hq
        rw [List.flatten_cons, List.length_append]
        omega
    · intro h
      refine ⟨fun hne => by simpa using h [] p pts rfl hne, fun l q r hpts hq => ?_⟩
      have := h (p :: l) q r (by rw [hpts, List.cons_append]) hq
      rw [List.flatten_cons, List.length_append] at this
      omega

end Nonce

/-! ## The tag -/

/-- The state of the hash with the key `h` behind whole blocks, from the state `s` on. -/
def scan (h : Block) (s : Acc) (x : List UInt8) : Acc :=
  (run (fun s b => absorb h (xorBlock (s.block h) (Vector.ofFn fun j => b.getD j 0))) 16 s x).1

theorem hash_scan (h : Block) (s : Acc) (x : List UInt8) : hash h (s.block h) x = (scan h s x).block h := by
  rw [hash, scan, run_fst (by decide), run_fst (by decide)]
  exact List.foldl_hom (Acc.block h) fun s b => ghashBlock_absorb h (s.block h) _

/-- Counter mode from the counter 2 on. -/
def gctr (key : Key) (iv : Iv) (pt : List UInt8) : List UInt8 :=
  xorBytes pt ((List.range ((pt.length + 15) / 16)).flatMap fun i =>
    (encryptBlock (keyExpansion key) (nonceBlock iv (store32 (UInt32.ofNat (i + 2))))).toList)

theorem j0_init (key : Key) (iv : Iv) : (init key iv).j0 = nonceBlock iv (store32 1) := rfl

theorem crypt_init (key : Key) (iv : Iv) (pt : List UInt8) : crypt (init key iv) pt = gctr key iv pt := by
  have hcounter : ∀ i, inc32^[0 + i + 1] (init key iv).j0 = nonceBlock iv (store32 (UInt32.ofNat (i + 2))) := by
    intro i
    rw [j0_init, inc32_iterate, Nat.zero_add, Nat.add_comm i 2, Nat.add_comm i 1, UInt32.ofNat_add, UInt32.ofNat_add,
      ← UInt32.add_assoc]
    rfl
  rw [crypt_eq, cryptFrom, stream]
  simp only [hcounter]
  rfl

/-- Hashing the plaintext after the ciphertext, and counting it, leaves the tag as it is. The two lengths are those of
the additional data and of the plaintext. -/
def TagKept (key : Key) (iv : Iv) (aad pt : List UInt8) : Prop :=
  let h := encryptBlock (keyExpansion key) (Vector.replicate 16 0)
  let a := UInt64.ofNat aad.length
  let n := UInt64.ofNat pt.length
  let s := scan h .zero (aad ++ gctr key iv pt)
  (scan h s (pt ++ gcmLenBlock a (n + n))).block h = (scan h s (gcmLenBlock a n)).block h

theorem xorBlock_right_inj {e x y : Block} : xorBlock e x = xorBlock e y ↔ x = y := by
  refine ⟨fun h => Vector.ext fun i hi => ?_, fun h => h ▸ rfl⟩
  have h := congrArg (fun b : Block => b[i]) h
  simp only [xorBlock, Vector.getElem_zipWith] at h
  exact (UInt8.xor_right_inj _).mp h

theorem tagOf_eq_iff (key : Key) (iv : Iv) {aad pt : List UInt8} (ha : 16 ∣ aad.length) (hp : 16 ∣ pt.length) :
    let ctx := ((init key iv).addAad aad).addCrypt (gctr key iv pt)
    tagOf (ctx.addCrypt pt) = tagOf ctx ↔ TagKept key iv aad pt := by
  have hlen : (gctr key iv pt).length = pt.length := by rw [← crypt_init, length_crypt]
  have hstart : hash (init key iv).h (hash (init key iv).h (init key iv).y aad) (gctr key iv pt) =
      (scan (init key iv).h .zero (aad ++ gctr key iv pt)).block (init key iv).h := by
    rw [← hash_append _ _ ha, ← hash_scan]
    rfl
  intro ctx
  have hdec : tagOf (ctx.addCrypt pt) = xorBlock (encryptBlock (init key iv).rk (init key iv).j0)
      (hash (init key iv).h (hash (init key iv).h (hash (init key iv).h (hash (init key iv).h (init key iv).y aad)
        (gctr key iv pt)) pt) (gcmLenBlock (0 + UInt64.ofNat aad.length)
          (0 + UInt64.ofNat (gctr key iv pt).length + UInt64.ofNat pt.length))) := rfl
  have henc : tagOf ctx = xorBlock (encryptBlock (init key iv).rk (init key iv).j0)
      (hash (init key iv).h (hash (init key iv).h (hash (init key iv).h (init key iv).y aad) (gctr key iv pt))
        (gcmLenBlock (0 + UInt64.ofNat aad.length) (0 + UInt64.ofNat (gctr key iv pt).length))) := rfl
  rw [hdec, henc, xorBlock_right_inj, ← hash_append _ _ hp, hstart, hash_scan, hash_scan, hlen, UInt64.zero_add,
    UInt64.zero_add]
  exact Iff.rfl

theorem blockBit_zero (b : Block) : blockBit b 0 = topBit b := by
  simp [blockBit, topBit, Vector.get_eq_getElem]

theorem topBit_xorBlock {x y : Block} (hx : topBit x = false) (hy : topBit y = false) :
    topBit (xorBlock x y) = false := by
  simp only [topBit, bne_eq_false_iff_eq] at hx hy ⊢
  have hget : (xorBlock x y).get 0 = x.get 0 ^^^ y.get 0 := by
    simp [xorBlock, Vector.get_eq_getElem]
  rw [hget, UInt8.shiftRight_xor, ← UInt8.toNat_inj, UInt8.toNat_and, UInt8.toNat_xor, Nat.and_xor_distrib_right,
    ← UInt8.toNat_and, ← UInt8.toNat_and, hx, hy]
  rfl

/-- With a key whose highest bit is clear, nothing is left behind a last block whose highest bit is clear. -/
theorem scan_append_of_not_topBit {h : Block} (htop : topBit h = false) (s : Acc) {x b : List UInt8}
    (hx : 16 ∣ x.length) (hb : b.length = 16) (hbit : topBit (Vector.ofFn fun j => b.getD j 0) = false) :
    scan h s (x ++ b) = .zero := by
  have hstate : ∀ s : Acc, topBit (s.block h) = false := by
    intro s
    cases s with
    | zero => exact topBit_zero
    | key => exact htop
    | carry => exact topBit_carryBlock
  have hrest : ∀ f : Acc → List UInt8 → Acc, (run f 16 s x).2 = [] := fun f =>
    List.length_eq_zero_iff.mp (by rw [length_run_snd, Nat.mod_eq_zero_of_dvd hx])
  rw [scan, run_append, hrest, List.nil_append, run_of_le (by decide) hb.ge, List.take_of_length_le hb.le,
    List.drop_of_length_le hb.le, run_of_lt (by decide), absorb, blockBit_zero, topBit_xorBlock (hstate _) hbit, htop]
  simp

theorem tagKept_of_not_topBit (key : Key) (iv : Iv) {aad pt : List UInt8} (hp : 16 ∣ pt.length)
    (htop : topBit (encryptBlock (keyExpansion key) (Vector.replicate 16 0)) = false) (haad : aad.length < 2 ^ 63) :
    TagKept key iv aad pt := by
  have hlen : ∀ n, (gcmLenBlock (UInt64.ofNat aad.length) n).length = 16 := by simp [gcmLenBlock]
  have hbit : ∀ n, topBit (Vector.ofFn fun j => (gcmLenBlock (UInt64.ofNat aad.length) n).getD j 0) = false := by
    intro n
    have hget : (Vector.ofFn fun j : Fin 16 => (gcmLenBlock (UInt64.ofNat aad.length) n).getD j 0).get 0 =
        (UInt64.ofNat aad.length >>> 56).toUInt8 := rfl
    rw [topBit, hget, bne_eq_false_iff_eq, ← UInt8.toNat_inj]
    simp [Nat.shiftRight_eq_div_pow]
    omega
  have hend : ∀ s x n, 16 ∣ x.length → scan _ s (x ++ gcmLenBlock (UInt64.ofNat aad.length) n) = .zero :=
    fun s x n hx => scan_append_of_not_topBit htop s hx (hlen n) (hbit n)
  unfold TagKept
  dsimp only
  rw [hend _ _ _ hp, ← List.nil_append (gcmLenBlock _ _), hend _ [] _ (Nat.dvd_zero 16)]

/-- **The interface.** For every key, nonce and cut of the data: a decryption gives the plaintext and the tag back and
the calls give what one call gives, exactly when every piece is a number of whole blocks, every piece of the plaintext
begins where the counter is back at its start, and the tag survives the second hashing. -/
theorem correct_iff (key : Key) (iv : Iv) (aads pts : List (List UInt8)) :
    Correct key iv aads pts ↔ (∀ p ∈ aads ++ pts, 16 ∣ p.length) ∧
      (∀ l p r, pts = l ++ p :: r → p ≠ [] → 2 ^ 36 ∣ l.flatten.length) ∧ TagKept key iv aads.flatten pts.flatten := by
  have hsingle : ∀ x : List UInt8, 16 ∣ x.length → ∀ y : List UInt8, 16 ∣ y.length →
      ∀ p ∈ [x] ++ [y], 16 ∣ p.length := by
    simp +contextual
  have hpieces : (∀ p ∈ pts, 16 ∣ p.length) →
      ((pts.map (crypt (init key iv))).flatten = crypt (init key iv) pts.flatten ↔
        ∀ l p r, pts = l ++ p :: r → p ≠ [] → 2 ^ 36 ∣ l.flatten.length) := by
    intro h16
    rw [crypt_eq _ pts.flatten, pieces_iff (j0_init key iv) 0 h16]
    refine forall₃_congr fun l p r => forall_congr' fun h => imp_congr_right fun _ => ?_
    have hl : 16 ∣ l.flatten.length := dvd_length_flatten fun q hq => h16 q (h ▸ List.mem_append_left _ hq)
    omega
  by_cases h16 : ∀ p ∈ aads ++ pts, 16 ∣ p.length
  · have ha := dvd_length_flatten fun a h => h16 a (List.mem_append_left _ h)
    have hpts := fun p h => h16 p (List.mem_append_right aads h)
    have hp := dvd_length_flatten hpts
    rw [Correct, process_encrypt, process_encrypt, if_pos h16, if_pos (hsingle _ ha _ hp), ← hpieces hpts]
    have hflat : ([pts.flatten].map (crypt (init key iv))).flatten = crypt (init key iv) pts.flatten := by simp
    have hct : 16 ∣ (crypt (init key iv) pts.flatten).length := by rwa [length_crypt]
    have htag := tagOf_eq_iff key iv ha hp
    dsimp only at htag
    rw [hflat, List.flatten_singleton, ← htag, ← crypt_init]
    constructor
    · rintro ⟨ct, tag, h₁, h₂, h₃⟩
      obtain ⟨rfl, rfl⟩ := Prod.mk.inj (Option.some.inj h₁)
      rw [process_decrypt, if_pos ⟨ha, hct⟩, crypt_crypt _ _ rfl rfl] at h₂
      exact ⟨h16, (Prod.mk.inj (Option.some.inj h₃)).1, (Prod.mk.inj (Option.some.inj h₂)).2⟩
    · rintro ⟨-, hpts, hkept⟩
      refine ⟨_, _, rfl, ?_, by rw [hpts]⟩
      rw [process_decrypt, if_pos ⟨ha, hct⟩, crypt_crypt _ _ rfl rfl, hkept]
  · refine iff_of_false ?_ fun h => h16 h.1
    rintro ⟨ct, tag, -, -, h⟩
    rw [process_encrypt, if_neg h16] at h
    cases h
/-- Under the zero key, two calls over one zero block each and one call over both give different ciphertexts, though
no read leaves its buffer. -/
theorem not_correct_two_blocks : ¬ Correct (Vector.replicate 32 0) (Vector.replicate 12 0) []
    [List.replicate 16 0, List.replicate 16 0] := by
  rintro ⟨ct, tag, h₁, -, h₂⟩
  have hne : process encrypt (Vector.replicate 32 0) (Vector.replicate 12 0) [[]] [List.replicate 32 0] ≠
      process encrypt (Vector.replicate 32 0) (Vector.replicate 12 0) []
        [List.replicate 16 0, List.replicate 16 0] := by
    decide +kernel
  exact hne (h₁.trans h₂.symm)

end SneppxAlg.AesGcm
