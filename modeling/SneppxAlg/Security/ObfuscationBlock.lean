import Mathlib.Data.BitVec
import Mathlib.Data.List.Infix
import Mathlib.Logic.Function.Basic
import Mathlib.Tactic.DeriveFintype
import SneppxAlg.Lib.Capped

/-!
# The instructions of the obfuscator

`include/neural_core/security/control_flow_obfuscation.h`: a block is a list of instructions, whose
operands and results are texts: the name of a variable, an integer, or an address expression such as
`[x + y]`. The passes of `security/obfuscation/inst_subst.cpp` rewrite these texts.

The machine here says what a block means. It has `w`-bit variables, a stack and a memory, and runs the
instructions of a block one after the other; the jumps only choose the next block, so they change
nothing. The passes put values of their own into variables whose names start with `_t`
(`tempName`): two machines `Agree` if they are the same up to these.
-/

namespace SneppxAlg.Obfuscation

abbrev Text := List Char

/-- `SNEPPXObfInstType`. -/
inductive InstType
  | nop | add | sub | mul | div | mov | jmp | jz | jnz | call | ret | cmp | lea | and | or | xor | neg
  | push | pop | load | store | nand | not | shl
  deriving DecidableEq, Repr

/-- `SNEPPXObfInstruction`. -/
structure Instruction where
  type : InstType
  operand1 : Text := []
  operand2 : Text := []
  result : Text := []
  deriving DecidableEq, Repr

/-! ## Operands -/

/-- What a text stands for. -/
inductive Expr
  | const (n : ℤ)
  | var (x : Text)
  | sum (a b : Expr)
  | scaled (a b : Expr)
  | negated (a : Expr)
  deriving DecidableEq, Repr

def number (s : Text) : Option ℕ :=
  if s ≠ [] ∧ s.all Char.isDigit then some (Nat.ofDigitChars 10 s 0) else none

/-- Decimal integers. -/
def literal : Text → Option ℤ
  | '-' :: s => (number s).map fun n => -n
  | s => (number s).map fun n => n

/-- An integer or the name of a variable; an operand that is absent counts as zero. -/
def atom (s : Text) : Expr :=
  if s = [] then .const 0
  else match literal s with
    | some n => .const n
    | none => .var s

def address (s : Text) : Expr :=
  match s.dropWhile (· ≠ ' ') with
  | ' ' :: '+' :: ' ' :: y => .sum (atom (s.takeWhile (· ≠ ' '))) (atom y.dropLast)
  | ' ' :: '*' :: ' ' :: y => .scaled (atom (s.takeWhile (· ≠ ' '))) (atom y.dropLast)
  | _ => atom s.dropLast

/-- Texts of the forms `[x]`, `[x + y]`, `[x * n]` and `-(x)`, and atoms. -/
def readOperand : Text → Expr
  | '[' :: s => address s
  | '-' :: '(' :: s => .negated (atom s.dropLast)
  | s => atom s

def Expr.vars : Expr → List Text
  | .const _ => []
  | .var x => [x]
  | .sum a b => a.vars ++ b.vars
  | .scaled a b => a.vars ++ b.vars
  | .negated a => a.vars

def Expr.eval {w : ℕ} (vars : Text → BitVec w) : Expr → BitVec w
  | .const n => BitVec.ofInt w n
  | .var x => vars x
  | .sum a b => a.eval vars + b.eval vars
  | .scaled a b => a.eval vars * b.eval vars
  | .negated a => -a.eval vars

/-- The text is the name of a variable. -/
def IsVar (s : Text) : Prop := readOperand s = .var s

instance (s : Text) : Decidable (IsVar s) := inferInstanceAs (Decidable (_ = _))

/-! ## The machine -/

structure Machine (w : ℕ) where
  vars : Text → BitVec w
  stack : List (BitVec w)
  memory : BitVec w → BitVec w

variable {w : ℕ}

namespace Machine

def read (m : Machine w) (s : Text) : BitVec w := (readOperand s).eval m.vars

def setVar (m : Machine w) (x : Text) (v : BitVec w) : Machine w :=
  { m with vars := Function.update m.vars x v }

/-- A result that is no variable takes no value. -/
def assign (m : Machine w) (r : Text) (v : BitVec w) : Machine w :=
  if IsVar r then m.setVar r v else m

end Machine

/-- The value that an instruction computes from the values of its operands. -/
def InstType.value (t : InstType) (a b : BitVec w) : Option (BitVec w) :=
  match t with
  | .add | .lea => some (a + b)
  | .sub | .cmp => some (a - b)
  | .mul => some (a * b)
  | .div => some (a / b)
  | .mov => some a
  | .and => some (a &&& b)
  | .or => some (a ||| b)
  | .xor => some (a ^^^ b)
  | .neg => some (-a)
  | .nand => some (~~~(a &&& b))
  | .not => some (~~~a)
  | .shl => some (a <<< b.toNat)
  | _ => none

def step (m : Machine w) (i : Instruction) : Machine w :=
  match i.type with
  | .push => { m with stack := m.read i.operand1 :: m.stack }
  | .pop =>
    match m.stack with
    | [] => m
    | v :: stack => Machine.assign { m with stack := stack } i.result v
  | .load => m.assign i.result (m.memory (m.read i.operand1))
  | .store => { m with memory := Function.update m.memory (m.read i.operand1) (m.read i.operand2) }
  | t =>
    match t.value (m.read i.operand1) (m.read i.operand2) with
    | some v => m.assign i.result v
    | none => m

def run (m : Machine w) (block : List Instruction) : Machine w := block.foldl step m

def Instruction.vars (i : Instruction) : List Text :=
  (readOperand i.operand1).vars ++ (readOperand i.operand2).vars ++
    if IsVar i.result then [i.result] else []

def names (block : List Instruction) : List Text := block.flatMap Instruction.vars

/-! ## Temporaries -/

/-- `temp_name`: the buffer has room for 63 characters. -/
def tempName (base : Text) (idx : ℕ) : Text :=
  ("_t".toList ++ (Nat.toDigits 10 idx ++ '_' :: base)).take 63

/-- The names that `temp_name` makes start so. -/
def Temporary (x : Text) : Prop := "_t".toList <+: x

instance (x : Text) : Decidable (Temporary x) := inferInstanceAs (Decidable (_ <+: _))

theorem temporary_tempName (base : Text) (idx : ℕ) : Temporary (tempName base idx) := by
  simp [Temporary, tempName]

theorem tempName_of_short {base : Text} {idx : ℕ} (hb : base.length ≤ 40) (hi : idx < 10 ^ 20) :
    tempName base idx = '_' :: 't' :: (Nat.toDigits 10 idx ++ '_' :: base) := by
  have hdigits : (Nat.toDigits 10 idx).length ≤ 20 :=
    (Nat.length_toDigits_le_iff (by decide) (by decide)).mpr hi
  refine List.take_of_length_le ?_
  simp
  omega

theorem tempName_inj {base base' : Text} {idx idx' : ℕ} (hb : base.length ≤ 40)
    (hb' : base'.length ≤ 40) (hi : idx < 10 ^ 20) (hi' : idx' < 10 ^ 20)
    (h : tempName base idx = tempName base' idx') : base = base' ∧ idx = idx' := by
  rw [tempName_of_short hb hi, tempName_of_short hb' hi'] at h
  have htail : Nat.toDigits 10 idx ++ '_' :: base = Nat.toDigits 10 idx' ++ '_' :: base' := by
    simpa using h
  have htake : ∀ (n : ℕ) (s : Text),
      (Nat.toDigits 10 n ++ '_' :: s).takeWhile (· ≠ '_') = Nat.toDigits 10 n := fun n s =>
    Lib.Capped.takeWhile_ne_append_cons Nat.underscore_not_in_toDigits
  have hdigits : Nat.toDigits 10 idx = Nat.toDigits 10 idx' := by
    rw [← htake idx base, htail, htake]
  refine ⟨?_, ?_⟩
  · simpa [hdigits] using htail
  · rw [← Nat.ofDigitChars_ten_toDigits (n := idx), hdigits, Nat.ofDigitChars_ten_toDigits]

theorem isVar_of_temporary {x : Text} (h : Temporary x) : IsVar x := by
  obtain ⟨rest, rfl⟩ := h
  simp [IsVar, readOperand, atom, literal, number, Char.isDigit]

/-! ## Reading the texts that the passes build -/

/-- The operands that stand for one variable or one integer. -/
def Plain (s : Text) : Prop := ' ' ∉ s ∧ '[' ∉ s ∧ '(' ∉ s

instance (s : Text) : Decidable (Plain s) := inferInstanceAs (Decidable (_ ∧ _ ∧ _))

theorem readOperand_plain {s : Text} (h : Plain s) : readOperand s = atom s := by
  obtain ⟨-, hbracket, hparen⟩ := h
  unfold readOperand
  split
  · simp at hbracket
  · simp at hparen
  · rfl

theorem vars_atom (s : Text) : ∀ x ∈ (atom s).vars, x = s := by
  intro x hx
  unfold atom at hx
  split_ifs at hx
  · simp [Expr.vars] at hx
  · split at hx <;> simp [Expr.vars] at hx
    exact hx

theorem vars_plain {s : Text} (h : Plain s) : ∀ x ∈ (readOperand s).vars, x = s := by
  rw [readOperand_plain h]
  exact vars_atom s

theorem literal_toDigits (n : ℕ) : literal (Nat.toDigits 10 n) = some (n : ℤ) := by
  have hdigit : ∀ c ∈ Nat.toDigits 10 n, c.isDigit := fun c hc =>
    Nat.isDigit_of_mem_toDigits (by decide) (by decide) hc
  have hnumber : number (Nat.toDigits 10 n) = some n := by
    simpa [number, Nat.toDigits_ne_nil] using hdigit
  unfold literal
  split
  · next s heq =>
    -- a sign is no digit
    have := hdigit '-' (by simp [heq])
    simp [Char.isDigit] at this
  · rw [hnumber]
    rfl

theorem atom_toDigits (n : ℕ) : atom (Nat.toDigits 10 n) = .const n := by
  simp [atom, literal_toDigits, Nat.toDigits_ne_nil]

theorem dropWhile_blank {a : Text} (ha : ' ' ∉ a) (s : Text) :
    (a ++ ' ' :: s).dropWhile (· ≠ ' ') = ' ' :: s := by
  have h := List.takeWhile_append_dropWhile (p := (· ≠ ' ')) (l := a ++ ' ' :: s)
  rw [Lib.Capped.takeWhile_ne_append_cons ha] at h
  exact List.append_cancel_left h

theorem readOperand_sum {a : Text} (b : Text) (ha : Plain a) :
    readOperand ("[".toList ++ a ++ " + ".toList ++ b ++ "]".toList) = .sum (atom a) (atom b) := by
  have htext : "[".toList ++ a ++ " + ".toList ++ b ++ "]".toList =
      '[' :: (a ++ ' ' :: ('+' :: ' ' :: (b ++ [']']))) := by simp
  rw [htext]
  simp only [readOperand, address, dropWhile_blank ha.1, List.dropLast_concat,
    Lib.Capped.takeWhile_ne_append_cons ha.1]

theorem readOperand_scaled {a : Text} (n : Text) (ha : Plain a) :
    readOperand ("[".toList ++ a ++ " * ".toList ++ n ++ "]".toList) = .scaled (atom a) (atom n) := by
  have htext : "[".toList ++ a ++ " * ".toList ++ n ++ "]".toList =
      '[' :: (a ++ ' ' :: ('*' :: ' ' :: (n ++ [']']))) := by simp
  rw [htext]
  simp only [readOperand, address, dropWhile_blank ha.1, List.dropLast_concat,
    Lib.Capped.takeWhile_ne_append_cons ha.1]

theorem readOperand_negated (a : Text) :
    readOperand ("-(".toList ++ a ++ ")".toList) = .negated (atom a) := by
  have htext : "-(".toList ++ a ++ ")".toList = '-' :: '(' :: (a ++ [')']) := by simp
  rw [htext]
  simp only [readOperand, List.dropLast_concat]

theorem Plain.append {a b : Text} (ha : Plain a) (hb : Plain b) : Plain (a ++ b) := by
  obtain ⟨ha1, ha2, ha3⟩ := ha
  obtain ⟨hb1, hb2, hb3⟩ := hb
  exact ⟨by simp [ha1, hb1], by simp [ha2, hb2], by simp [ha3, hb3]⟩

/-! ## Machines up to temporaries -/

theorem Expr.eval_congr {f g : Text → BitVec w} {e : Expr} (h : ∀ x ∈ e.vars, f x = g x) :
    e.eval f = e.eval g := by
  induction e with
  | const n => rfl
  | var x => exact h x (List.mem_singleton.mpr rfl)
  | sum a b iha ihb | scaled a b iha ihb =>
    simp only [Expr.eval]
    rw [iha fun x hx => h x (List.mem_append_left _ hx), ihb fun x hx => h x (List.mem_append_right _ hx)]
  | negated a ih =>
    simp only [Expr.eval]
    rw [ih h]

structure Agree (m n : Machine w) : Prop where
  vars : ∀ x, ¬ Temporary x → m.vars x = n.vars x
  stack : m.stack = n.stack
  memory : m.memory = n.memory

/-- The text reads no temporary. -/
def Clean (s : Text) : Prop := ∀ x ∈ (readOperand s).vars, ¬ Temporary x

instance (s : Text) : Decidable (Clean s) :=
  inferInstanceAs (Decidable (∀ x ∈ (readOperand s).vars, ¬ Temporary x))

theorem Clean.not_temporary {s : Text} (h : Clean s) : ¬ Temporary s := by
  intro ht
  refine h s ?_ ht
  rw [isVar_of_temporary ht]
  exact List.mem_singleton.mpr rfl

/-- A suffix that goes on otherwise makes no temporary. -/
theorem not_temporary_append {s t : Text} (hs : ¬ Temporary s) (ht : ¬ Temporary t)
    (hne : t.head? ≠ some 't') : ¬ Temporary (s ++ t) := by
  intro h
  match s with
  | [] => exact ht h
  | [c] =>
    cases t with
    | nil => exact hs (by simpa using h)
    | cons c' t =>
      have hc : '_' = c ∧ 't' = c' := by simpa [Temporary] using h
      exact hne (congrArg some hc.2.symm)
  | c :: c' :: s => exact hs (by simpa [Temporary] using h)

theorem Clean.append {s t : Text} (hs : Clean s) (hps : Plain s) (hpt : Plain t)
    (ht : ¬ Temporary t) (hne : t.head? ≠ some 't') : Clean (s ++ t) := by
  intro x hx
  rw [vars_plain (hps.append hpt) x hx]
  exact not_temporary_append hs.not_temporary ht hne

theorem Agree.refl (m : Machine w) : Agree m m := ⟨fun _ _ => rfl, rfl, rfl⟩

theorem Agree.symm {m n : Machine w} (h : Agree m n) : Agree n m :=
  ⟨fun x hx => (h.vars x hx).symm, h.stack.symm, h.memory.symm⟩

theorem Agree.trans {m n k : Machine w} (h : Agree m n) (h' : Agree n k) : Agree m k :=
  ⟨fun x hx => (h.vars x hx).trans (h'.vars x hx), h.stack.trans h'.stack, h.memory.trans h'.memory⟩

theorem Agree.read {m n : Machine w} (h : Agree m n) {s : Text} (hs : Clean s) :
    m.read s = n.read s :=
  Expr.eval_congr fun x hx => h.vars x (hs x hx)

theorem Agree.assign {m n : Machine w} (h : Agree m n) (r : Text) (v : BitVec w) :
    Agree (m.assign r v) (n.assign r v) := by
  unfold Machine.assign
  split_ifs
  · refine ⟨fun x hx => ?_, h.stack, h.memory⟩
    by_cases hr : x = r
    · simp [Machine.setVar, hr]
    · simpa [Machine.setVar, hr] using h.vars x hx
  · exact h

/-- A value that goes into a temporary is not seen. -/
theorem Agree.assign_temp {m n : Machine w} (h : Agree m n) {t : Text} (ht : Temporary t)
    (v : BitVec w) : Agree (m.assign t v) n := by
  rw [Machine.assign, if_pos (isVar_of_temporary ht)]
  refine ⟨fun x hx => ?_, h.stack, h.memory⟩
  have hne : x ≠ t := fun he => hx (he ▸ ht)
  simpa [Machine.setVar, hne] using h.vars x hx

theorem Agree.step {m n : Machine w} (h : Agree m n) {i : Instruction} (h1 : Clean i.operand1)
    (h2 : Clean i.operand2) : Agree (step m i) (step n i) := by
  have hread1 := h.read h1
  have hread2 := h.read h2
  have hvars := h.vars
  unfold Obfuscation.step
  rw [hread1, hread2, h.stack, h.memory]
  split
  · exact ⟨hvars, rfl, rfl⟩
  · split
    · exact h
    · refine Agree.assign ?_ _ _
      exact ⟨hvars, rfl, rfl⟩
  · exact h.assign _ _
  · exact ⟨hvars, rfl, rfl⟩
  · split
    · exact h.assign _ _
    · exact h

theorem Machine.assign_of_not {r : Text} (h : ¬ IsVar r) (m : Machine w) (v : BitVec w) :
    m.assign r v = m := if_neg h

theorem Machine.assign_assign (m : Machine w) (r : Text) (v v' : BitVec w) :
    (m.assign r v).assign r v' = m.assign r v' := by
  unfold assign
  split_ifs
  · simp [setVar]
  · rfl

theorem Machine.read_assign_self {m : Machine w} {r : Text} (hr : IsVar r) (v : BitVec w) :
    (m.assign r v).read r = v := by
  rw [assign, if_pos hr, read, hr]
  simp [Expr.eval, setVar]

theorem Machine.read_assign_of_notMem {m : Machine w} {r s : Text}
    (h : r ∉ (readOperand s).vars) (v : BitVec w) : (m.assign r v).read s = m.read s := by
  unfold assign
  split_ifs
  · refine Expr.eval_congr fun x hx => ?_
    have hne : x ≠ r := fun he => h (he ▸ hx)
    simp [setVar, hne]
  · rfl

end SneppxAlg.Obfuscation
