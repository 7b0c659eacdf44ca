import SneppxAlg.Lib.ShiftRegister
import SneppxAlg.Security.AuditLogger

/-!
# What the chain value detects

The chain value of `security/ui/audit_logger.c` folds the checksums of the entries. A link takes the CRC
of the four bytes of the chain value, and adds the checksum of the entry.

The CRC of four bytes is 32 steps of a linear shift register (`toBitVec_crcWord`), in which no value is lost
and no value but zero stays as it is. The first means that a difference in the chain value stays a difference
up to the end of the log. The second means that two entries cannot change places: the difference of their
checksums would have to be a value that stays as it is (`link_swap`).
-/

namespace SneppxAlg.Audit

open Lib.Bytes Lib.ShiftRegister

/-! ## The CRC of a word -/

def crcPoly : BitVec 32 := 0xEDB88320#32

theorem and_one_eq (crc : UInt32) : crc &&& 1 = if crc.toBitVec.getLsbD 0 then 1 else 0 := by
  have hword : crc.toBitVec &&& 1#32 = (BitVec.ofBool (crc.toBitVec.getLsbD 0)).setWidth 32 :=
    BitVec.and_one_eq_setWidth_ofBool_getLsbD
  refine UInt32.toBitVec_inj.mp ?_
  rw [UInt32.toBitVec_and]
  refine hword.trans ?_
  cases crc.toBitVec.getLsbD 0 <;> rfl

theorem toBitVec_crcBit (crc : UInt32) : (crcBit crc).toBitVec = shift crcPoly crc.toBitVec := by
  have hones : (0xEDB88320 : UInt32) &&& -1 = 0xEDB88320 := by decide
  rw [crcBit, and_one_eq, shift]
  cases crc.toBitVec.getLsbD 0
  · simp
  · simp [hones, crcPoly]

theorem toBitVec_crcByte (crc : UInt32) (b : UInt8) :
    (crcByte crc b).toBitVec = (shift crcPoly)^[8] (crc.toBitVec ^^^ b.toBitVec.setWidth 32) := by
  have hrun : ∀ (n : ℕ) (c : UInt32), (crcBit^[n] c).toBitVec = (shift crcPoly)^[n] c.toBitVec := by
    intro n c
    induction n with
    | zero => rfl
    | succ n ih => rw [Function.iterate_succ_apply', Function.iterate_succ_apply', toBitVec_crcBit, ih]
  rw [crcByte, hrun]
  simp

/-- The bytes of a number are added one by one, and the steps between them move the later ones down to where
they are added. -/
theorem toBitVec_foldl_crcByte (n : ℕ) (crc : UInt32) {x : ℕ} (hx : x < 256 ^ n) (hx' : x < 2 ^ 32) :
    ((leBytes n x).foldl crcByte crc).toBitVec =
      (shift crcPoly)^[8 * n] (crc.toBitVec ^^^ BitVec.ofNat 32 x) := by
  induction n generalizing crc x with
  | zero =>
    obtain rfl : x = 0 := by simpa using hx
    simp [leBytes]
  | succ n ih =>
    have hlow : (UInt8.ofNat x).toBitVec.setWidth 32 = BitVec.ofNat 32 (x % 2 ^ 8) := by
      refine BitVec.eq_of_toNat_eq ?_
      simp
    have hclear : ∀ i < 8, (BitVec.ofNat 32 (x % 2 ^ 8) ^^^ BitVec.ofNat 32 x).getLsbD i = false := by
      intro i hi
      have hi' : i < 32 := by omega
      simp only [BitVec.getLsbD_xor, BitVec.getLsbD_ofNat, Nat.testBit_mod_two_pow, hi, hi', decide_true,
        Bool.true_and, bne_self_eq_false]
    have hhigh : (BitVec.ofNat 32 (x % 2 ^ 8) ^^^ BitVec.ofNat 32 x) >>> 8 = BitVec.ofNat 32 (x / 256) := by
      refine BitVec.eq_of_getLsbD_eq fun i hi => ?_
      have hdiv : x / 256 = x >>> 8 := (Nat.shiftRight_eq_div_pow x 8).symm
      rw [BitVec.getLsbD_ushiftRight, BitVec.getLsbD_xor, BitVec.getLsbD_ofNat, BitVec.getLsbD_ofNat,
        BitVec.getLsbD_ofNat, hdiv, Nat.testBit_shiftRight, Nat.testBit_mod_two_pow]
      by_cases hlt : 8 + i < 32
      · simp [hlt, hi]
      · have hbit : x.testBit (8 + i) = false :=
          Nat.testBit_lt_two_pow (hx'.trans_le (Nat.pow_le_pow_right (by norm_num) (by omega)))
        simp [hbit]
    have hsplit : crc.toBitVec ^^^ BitVec.ofNat 32 x =
        crc.toBitVec ^^^ BitVec.ofNat 32 (x % 2 ^ 8) ^^^
          (BitVec.ofNat 32 (x % 2 ^ 8) ^^^ BitVec.ofNat 32 x) := by
      rw [BitVec.xor_assoc, ← BitVec.xor_assoc (BitVec.ofNat 32 (x % 2 ^ 8)), BitVec.xor_self,
        BitVec.zero_xor]
    rw [leBytes, List.foldl_cons, ih _ (by rw [pow_succ] at hx; omega) (by omega), toBitVec_crcByte, hlow,
      Nat.mul_succ, Function.iterate_add_apply, hsplit,
      iterate_xor crcPoly 8 (crc.toBitVec ^^^ BitVec.ofNat 32 (x % 2 ^ 8)), iterate_of_low_zero crcPoly hclear,
      hhigh]

def crcWord (x : UInt32) : UInt32 := auditCrc32 (leBytes 4 x.toNat)

theorem toBitVec_crcWord (x : UInt32) :
    (crcWord x).toBitVec = ~~~(shift crcPoly)^[32] (BitVec.allOnes 32 ^^^ x.toBitVec) := by
  have hx := x.toNat_lt
  have hones : (0xFFFFFFFF : UInt32).toBitVec = BitVec.allOnes 32 := rfl
  rw [crcWord, auditCrc32, UInt32.toBitVec_not, toBitVec_foldl_crcByte 4 _ hx hx, hones,
    ← UInt32.toNat_toBitVec, BitVec.ofNat_toNat, BitVec.setWidth_eq]

theorem msb_crcPoly : crcPoly.msb = true := by decide

theorem parity_crcPoly : parity crcPoly = 0 := by decide

theorem crcWord_injective : Function.Injective crcWord := by
  intro x y h
  have hbits := congrArg UInt32.toBitVec h
  rw [toBitVec_crcWord, toBitVec_crcWord, BitVec.not_inj] at hbits
  have hxor := (shift_injective msb_crcPoly).iterate 32 hbits
  exact UInt32.toBitVec_inj.mp ((BitVec.xor_right_inj _).mp hxor)

/-- What the CRC makes of a difference does not depend on where the difference is. -/
theorem toBitVec_crcWord_xor (x y : UInt32) :
    (crcWord (x ^^^ y)).toBitVec = (crcWord x).toBitVec ^^^ (shift crcPoly)^[32] y.toBitVec := by
  rw [toBitVec_crcWord, toBitVec_crcWord, UInt32.toBitVec_xor, ← BitVec.xor_assoc, iterate_xor,
    BitVec.not_xor_left]

/-! ## Links -/

theorem link_eq (chain crc : UInt32) : link chain crc = crcWord chain ^^^ crc := rfl

theorem link_right_injective (chain : UInt32) : Function.Injective (link chain) :=
  fun _ _ h => (UInt32.xor_right_inj _).mp h

theorem link_left_injective (crc : UInt32) : Function.Injective (link · crc) :=
  fun _ _ h => crcWord_injective ((UInt32.xor_left_inj _).mp h)

theorem xor_eq_xor_of_cross {p q s t : BitVec 32} (h : p ^^^ t = q ^^^ s) : p ^^^ q = s ^^^ t := by
  have hq : q = p ^^^ t ^^^ s := by rw [h, BitVec.xor_assoc, BitVec.xor_self, BitVec.xor_zero]
  rw [hq, BitVec.xor_assoc, ← BitVec.xor_assoc, BitVec.xor_self, BitVec.zero_xor, BitVec.xor_comm]

/-- Two different checksums cannot change places. -/
theorem link_swap {chain a b : UInt32} (h : link (link chain a) b = link (link chain b) a) : a = b := by
  have hbits := congrArg UInt32.toBitVec h
  simp only [link_eq, UInt32.toBitVec_xor, toBitVec_crcWord_xor, BitVec.xor_assoc] at hbits
  have hfix : (shift crcPoly)^[2 ^ 5] (a.toBitVec ^^^ b.toBitVec) = a.toBitVec ^^^ b.toBitVec := by
    rw [iterate_xor]
    exact xor_eq_xor_of_cross ((BitVec.xor_right_inj _).mp hbits)
  exact UInt32.toBitVec_inj.mp (eq_of_xor_eq_zero (eq_zero_of_iterate_eq parity_crcPoly 5 hfix))

theorem foldl_link_injective (es : List AuditEntry) :
    Function.Injective fun chain => es.foldl (fun chain e => link chain e.crc) chain := by
  induction es with
  | nil => exact Function.injective_id
  | cons e es ih => exact fun _ _ h => link_left_injective e.crc (ih h)

/-! ## Logs -/

/-- The arguments of a call of `SNEPPX_audit_log`, with the reading of the clock. -/
structure LogCall where
  now : UInt64
  eventType : Int32
  description : Option (List UInt8)
  relatedAddress : UInt64

def logged (calls : List LogCall) : AuditLogger :=
  calls.foldl (fun a c => auditLog a c.now c.eventType c.description c.relatedAddress) auditInit

/-- One entry has become another one, whose checksum is its own and a different one, or two neighbours with
different checksums have changed places. -/
inductive Tampered : List AuditEntry → List AuditEntry → Prop
  | replace (pre post : List AuditEntry) (e e' : AuditEntry) (hcrc : e'.crc = e'.checksum)
      (hne : e'.crc ≠ e.crc) : Tampered (pre ++ e :: post) (pre ++ e' :: post)
  | swap (pre post : List AuditEntry) (e e' : AuditEntry) (hne : e.crc ≠ e'.crc) :
      Tampered (pre ++ e :: e' :: post) (pre ++ e' :: e :: post)

theorem Tampered.foldl_link_ne {es es' : List AuditEntry} (h : Tampered es es') (chain : UInt32) :
    es.foldl (fun chain e => link chain e.crc) chain ≠ es'.foldl (fun chain e => link chain e.crc) chain := by
  intro heq
  cases h with
  | replace pre post e e' hcrc hne =>
    rw [List.foldl_append, List.foldl_append, List.foldl_cons, List.foldl_cons] at heq
    exact hne (link_right_injective _ (@foldl_link_injective post _ _ heq)).symm
  | swap pre post e e' hne =>
    rw [List.foldl_append, List.foldl_append, List.foldl_cons, List.foldl_cons, List.foldl_cons,
      List.foldl_cons] at heq
    exact hne (link_swap (@foldl_link_injective post _ _ heq))

theorem consistent_logged (calls : List LogCall) : Consistent (logged calls) := by
  have hrun : ∀ a, Consistent a → Consistent
      (calls.foldl (fun a c => auditLog a c.now c.eventType c.description c.relatedAddress) a) := by
    induction calls with
    | nil => exact fun _ h => h
    | cons c calls ih => exact fun a h => ih _ (auditLog_consistent h _ _ _ _)
  exact hrun auditInit consistent_init

theorem verifyChain_eq_zero {a : AuditLogger} (h : ¬ Consistent a) : verifyChain a = 0 := by
  have hne := mt verifyChain_eq_one.mp h
  unfold verifyChain at hne ⊢
  split
  · rfl
  · next chain hloop =>
    rw [hloop] at hne
    exact if_neg fun heq => hne (if_pos heq)

/-- With the recorded chain value neither of them verifies, wherever in the log it is. -/
theorem verifyChain_tampered (calls : List LogCall) {entries : List AuditEntry}
    (h : Tampered (logged calls).entries entries) :
    verifyChain { logged calls with entries := entries } = 0 := by
  refine verifyChain_eq_zero fun hconsistent => ?_
  have hchain := (consistent_logged calls).chain.symm.trans hconsistent.chain
  exact h.foldl_link_ne 0 hchain

def twoCalls : List LogCall := [⟨5, 0, some [97], 0⟩, ⟨5, 1, some [97], 0⟩]

/-- The two entries change places. -/
theorem verifyChain_tampered_twoCalls :
    verifyChain { logged twoCalls with entries := [newEntry 5 1 [97] 0, newEntry 5 0 [97] 0] } = 0 :=
  verifyChain_tampered twoCalls
    (.swap [] [] (newEntry 5 0 [97] 0) (newEntry 5 1 [97] 0) (by decide +kernel))

end SneppxAlg.Audit
