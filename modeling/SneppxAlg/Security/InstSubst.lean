import Mathlib.Tactic.LinearCombination
import Mathlib.Tactic.Ring
import SneppxAlg.Lib.Expansion
import SneppxAlg.Security.ObfuscationBlock

/-!
# Instruction substitution

`security/obfuscation/inst_subst.cpp`: `substitute_logic` goes through a block and replaces each
arithmetic instruction by a sequence of others that is meant to leave the same value in its result.
Most instructions have two or three such sequences, and a random number chooses among them.

Subtraction, exclusive or, complement and negation always come out right, and so do the first sequences
of conjunction and disjunction. The others are right on some operands only, which `Exact` lists. So
the block after the pass leaves the variables of the block as the block itself does, along the whole
of it, if and only if each instruction is executed on operands of which its sequence is right
(`substituteLogic_iff`).
-/

namespace SneppxAlg.Obfuscation

open Lib.GuardedRun Lib.Expansion

/-! ## The pass -/

/-- The values that `rng` returns from here on. -/
abbrev Rng := ℕ → ℕ

def rng : StateM Rng ℕ := fun d => (d 0, fun n => d (n + 1))

def makeMov (result src : Text) : Instruction :=
  { type := .mov, operand1 := src, result := result }

/-- The instructions with two operands: `make_add`, `make_sub`, `make_xor`, `make_nand`,
`make_mul_inst`. -/
def makeBinary (type : InstType) (result op1 op2 : Text) : Instruction :=
  { type := type, operand1 := op1, operand2 := op2, result := result }

def makeAdd : Text → Text → Text → Instruction := makeBinary .add

def makeSub : Text → Text → Text → Instruction := makeBinary .sub

def makeXor : Text → Text → Text → Instruction := makeBinary .xor

def makeNand : Text → Text → Text → Instruction := makeBinary .nand

def makeMulInst : Text → Text → Text → Instruction := makeBinary .mul

/-- `temp_name(base, value % 1000)`. -/
def tempOf (base : Text) (value : ℕ) : Text := tempName base (value % 1000)

def temp (base : String) : StateM Rng Text := do
  return tempOf base.toList (← rng)

/-- `rand_int`. -/
def randInt (min max : ℕ) : StateM Rng ℕ := do
  return min + (← rng) % (max - min + 1)

def substituteAddInst (inst : Instruction) : StateM Rng Instruction := do
  let choice := (← rng) % 3
  if choice = 0 then
    return { type := .lea, result := inst.result,
             operand1 := "[".toList ++ inst.operand1 ++ " + ".toList ++ inst.operand2 ++ "]".toList }
  else if choice = 1 then
    return { type := .xor, result := inst.result, operand1 := inst.operand1,
             operand2 := inst.operand2 }
  else
    return { type := .sub, result := inst.result, operand1 := inst.operand1,
             operand2 := "-(".toList ++ inst.operand2 ++ ")".toList }

def substituteSubInst (inst : Instruction) : StateM Rng (List Instruction) := do
  let t := tempOf inst.operand2 (← rng)
  return [{ type := .neg, operand1 := inst.operand2, result := t },
    makeAdd inst.result inst.operand1 t]

/-- The loops of `substitute_mul_inst` and `substitute_shl_inst`: `n` sums, each into a temporary of its
own, of the sum before and `addend` of it. Returns the last sum's name beside them. -/
def sums (base : String) (addend : Text → Text) : ℕ → Text → StateM Rng (List Instruction × Text)
  | 0, acc => return ([], acc)
  | n + 1, acc => do
    let tmp ← temp base
    let (rest, last) ← sums base addend n tmp
    return (makeAdd tmp acc (addend acc) :: rest, last)

def substituteMulInst (inst : Instruction) : StateM Rng (List Instruction) := do
  let k ← randInt 2 5
  let acc ← temp "mul"
  let (adds, last) ← sums "m" (fun _ => inst.operand1) (k - 1) acc
  return makeMov acc inst.operand1 :: adds ++ [makeMov inst.result last]

def substituteDivInst (inst : Instruction) : StateM Rng (List Instruction) := do
  let t ← temp "div"
  let t2 ← temp "d"
  let shift := if inst.operand2 = "2".toList then [makeBinary .shl t2 t2 "2".toList] else []
  return [makeAdd t inst.operand1 inst.operand1, makeAdd t2 t inst.operand1] ++ shift ++
    [makeMov inst.result t2]

def substituteAndInst (inst : Instruction) : StateM Rng (List Instruction) := do
  let t ← temp "and"
  return [makeNand t inst.operand1 inst.operand2, makeNand inst.result t t]

def substituteOrInst (inst : Instruction) : StateM Rng (List Instruction) := do
  let t1 ← temp "or"
  let t2 ← temp "r"
  return [makeNand t1 inst.operand1 inst.operand1, makeNand t2 inst.operand2 inst.operand2,
    makeNand inst.result t1 t2]

def substituteXorInst (inst : Instruction) : StateM Rng (List Instruction) := do
  let nab ← temp "x"
  let na ← temp "y"
  let nb ← temp "z"
  return [makeNand nab inst.operand1 inst.operand2, makeNand na inst.operand1 nab,
    makeNand nb inst.operand2 nab, makeNand inst.result na nb]

def substituteNotInst (inst : Instruction) : StateM Rng (List Instruction) := do
  let ones ← temp "not"
  return [makeMov ones "-1".toList, makeXor inst.result inst.operand1 ones]

def substituteNegInst (inst : Instruction) : StateM Rng (List Instruction) := do
  let notV ← temp "neg"
  let notSeq ← substituteNotInst inst
  let seq := notSeq.map fun n =>
    if n.type = .xor then makeXor notV n.operand1 n.operand2 else n
  return seq ++ [makeAdd inst.result notV "1".toList]

/-- The characters that `isspace` accepts. -/
def isSpace (c : Char) : Bool := c = ' ' || (9 ≤ c.toNat && c.toNat ≤ 13)

/-- `std::stoi`: blanks, a sign and the digits that follow, whatever comes after them; `none` where it
throws. -/
def stoi (s : Text) : Option ℤ :=
  let (sign, digits) : ℤ × Text :=
    match s.dropWhile isSpace with
    | '-' :: t => (-1, t.takeWhile Char.isDigit)
    | '+' :: t => (1, t.takeWhile Char.isDigit)
    | t => (1, t.takeWhile Char.isDigit)
  let n := sign * Nat.ofDigitChars 10 digits 0
  if digits = [] then none else if -2 ^ 31 ≤ n ∧ n < 2 ^ 31 then some n else none

/-- How often `substitute_shl_inst` doubles: the operand's number, or once if it has none. -/
def doublings (operand2 : Text) : ℕ := ((stoi operand2).getD 1).toNat

def substituteShlInst (inst : Instruction) : StateM Rng (List Instruction) := do
  let acc ← temp "shl"
  let (adds, last) ← sums "s" id (doublings inst.operand2) acc
  return makeMov acc inst.operand1 :: adds ++ [makeMov inst.result last]

def substituteAddLeaScaled (inst : Instruction) : StateM Rng (List Instruction) := do
  let scale := 2 ^ ((← rng) % 4)
  let lea := makeBinary .lea inst.result inst.operand1
    ("[".toList ++ inst.operand2 ++ " * ".toList ++ Nat.toDigits 10 scale ++ "]".toList)
  if scale > 1 then
    let rem ← temp "rem"
    return [lea, makeSub rem inst.result inst.operand1, makeBinary .lea inst.result rem inst.operand2]
  else
    return [lea]

def substituteSubNegAdc (inst : Instruction) : StateM Rng (List Instruction) := do
  let negD ← temp "n"
  let carry ← temp "c"
  let notC ← temp "nc"
  let notSeq ← substituteNotInst { type := .not, operand1 := "0".toList, result := carry }
  return [{ type := .neg, operand1 := inst.operand2, result := negD }, makeMov carry "0".toList] ++
    notSeq.map (fun n => { n with result := notC }) ++ [makeAdd inst.result inst.operand1 negD]

def substituteMulKaratsuba (inst : Instruction) : StateM Rng (List Instruction) := do
  let aHi ← temp "ahi"
  let aLo ← temp "alo"
  let bHi ← temp "bhi"
  let bLo ← temp "blo"
  let z0 ← temp "z0"
  let z1 ← temp "z1"
  let z2 ← temp "z2"
  let p1 ← temp "p1"
  let p2 ← temp "p2"
  return [makeMov aHi (inst.operand1 ++ "_hi".toList), makeMov aLo inst.operand1,
    makeMov bHi (inst.operand2 ++ "_hi".toList), makeMov bLo inst.operand2,
    makeMulInst z0 aLo bLo, makeMulInst z2 aHi bHi, makeAdd p1 aLo aHi, makeAdd p2 bLo bHi,
    makeMulInst z1 p1 p2, makeSub z1 z1 z0, makeSub z1 z1 z2, makeAdd inst.result z0 z1,
    makeAdd inst.result inst.result z2]

def substituteAndNandVariant (inst : Instruction) : StateM Rng (List Instruction) := do
  let t1 ← temp "av"
  let t2 ← temp "av2"
  return [makeNand t1 inst.operand1 inst.operand1, makeNand t2 inst.operand2 inst.operand2,
    makeNand t1 t1 t2, makeNand t2 t1 t1, makeNand inst.result t2 t2]

def substituteOrNandVariant (inst : Instruction) : StateM Rng (List Instruction) := do
  let t1 ← temp "ov"
  let t2 ← temp "ov2"
  let t3 ← temp "ov3"
  return [makeNand t1 inst.operand1 inst.operand2, makeNand t2 inst.operand1 t1,
    makeNand t3 inst.operand2 t1, makeNand inst.result t2 t3]

def substituteXorNandVariant (inst : Instruction) : StateM Rng (List Instruction) := do
  let n1 ← temp "xv"
  let n2 ← temp "xv2"
  let n3 ← temp "xv3"
  let n4 ← temp "xv4"
  return [makeNand n1 inst.operand1 inst.operand1, makeNand n2 inst.operand2 inst.operand2,
    makeNand n3 n1 n2, makeNand n1 inst.operand1 inst.operand2, makeNand n4 n3 n1,
    makeNand inst.result n4 n4]

/-- `rng() % 2` chooses between the two sequences of an instruction. -/
def eitherOf (first second : StateM Rng (List Instruction)) : StateM Rng (List Instruction) := do
  if (← rng) % 2 = 0 then first else second

/-- What the loop of `substitute_logic` puts in the place of an instruction. -/
def substituteInst (inst : Instruction) : StateM Rng (List Instruction) :=
  match inst.type with
  | .add => eitherOf (do return [← substituteAddInst inst]) (substituteAddLeaScaled inst)
  | .sub => eitherOf (substituteSubInst inst) (substituteSubNegAdc inst)
  | .mul => eitherOf (substituteMulInst inst) (substituteMulKaratsuba inst)
  | .div => substituteDivInst inst
  | .and => eitherOf (substituteAndInst inst) (substituteAndNandVariant inst)
  | .or => eitherOf (substituteOrInst inst) (substituteOrNandVariant inst)
  | .xor => eitherOf (substituteXorInst inst) (substituteXorNandVariant inst)
  | .not => substituteNotInst inst
  | .neg => substituteNegInst inst
  | .shl => substituteShlInst inst
  | _ => return [inst]

/-- `substitute_logic`: the index of the loop jumps over the instructions it has put in. -/
def substituteLogic (block : List Instruction) : StateM Rng (List Instruction) :=
  expandAll substituteInst block

/-! ## Identities of words -/

section Words

variable {w : ℕ}

theorem nand_nand (a b : BitVec w) : ~~~(~~~(a &&& b) &&& ~~~(a &&& b)) = a &&& b := by simp

theorem nand_not_not (a b : BitVec w) : ~~~(~~~(a &&& a) &&& ~~~(b &&& b)) = a ||| b := by
  ext i hi
  simp

theorem nand_xor (a b : BitVec w) :
    ~~~(~~~(a &&& ~~~(a &&& b)) &&& ~~~(b &&& ~~~(a &&& b))) = a ^^^ b := by
  ext i hi
  simp only [BitVec.getElem_not, BitVec.getElem_and, BitVec.getElem_xor]
  cases a[i] <;> cases b[i] <;> rfl

theorem or_and_nand (a b : BitVec w) : (a ||| b) &&& ~~~(a &&& b) = a ^^^ b := by
  ext i hi
  simp only [BitVec.getElem_not, BitVec.getElem_and, BitVec.getElem_or, BitVec.getElem_xor]
  cases a[i] <;> cases b[i] <;> rfl

theorem iterate_double (a : BitVec w) (k : ℕ) : (fun v => v + v)^[k] a = a <<< k := by
  induction k with
  | zero => simp
  | succ k ih =>
    rw [Function.iterate_succ_apply', ih, BitVec.shiftLeft_add]
    apply BitVec.eq_of_toNat_eq
    simp [Nat.shiftLeft_eq, Nat.mul_two]

theorem sum_eq_mul (a : BitVec w) (k : ℕ) : a + (k + 1) • a = BitVec.ofNat w (2 + k) * a := by
  have hcast : BitVec.ofNat w (2 + k) = ((k + 1 + 1 : ℕ) : BitVec w) := by
    rw [Nat.add_comm 2 k]
    rfl
  rw [hcast, ← nsmul_eq_mul, succ_nsmul' a (k + 1)]

theorem xor_eq_add_iff_carry (a b : BitVec w) :
    a ^^^ b = a + b ↔ ∀ i < w, BitVec.carry i a b false = false := by
  constructor
  · intro h i hi
    have hbit := congrArg (fun v => v.getLsbD i) h
    simp only [BitVec.getLsbD_xor, BitVec.getLsbD_add hi] at hbit
    revert hbit
    cases a.getLsbD i <;> cases b.getLsbD i <;> simp
  · intro h
    refine BitVec.eq_of_getLsbD_eq fun i hi => ?_
    rw [BitVec.getLsbD_xor, BitVec.getLsbD_add hi, h i hi, Bool.xor_false]

theorem carry_eq_false_iff (a b : BitVec w) :
    (∀ i < w, BitVec.carry i a b false = false) ↔
      ∀ i, i + 1 < w → (a.getLsbD i && b.getLsbD i) = false := by
  constructor
  · intro h i hi
    have hnext := h (i + 1) hi
    rw [BitVec.carry_succ, h i (by omega)] at hnext
    simpa [Bool.atLeastTwo] using hnext
  · intro h i
    induction i with
    | zero => simp
    | succ i ih =>
      intro hi
      rw [BitVec.carry_succ, ih (by omega)]
      simpa [Bool.atLeastTwo] using h i hi

theorem xor_eq_add_iff (a b : BitVec w) : a ^^^ b = a + b ↔ (a &&& b) <<< 1 = 0#w := by
  rw [xor_eq_add_iff_carry, carry_eq_false_iff]
  constructor
  · intro h
    refine BitVec.eq_of_getLsbD_eq fun i hi => ?_
    cases i with
    | zero => simp
    | succ i => simpa [-BitVec.getLsbD_eq_getElem, hi] using h i hi
  · intro h i hi
    have hbit := congrArg (fun v => v.getLsbD (i + 1)) h
    simpa [-BitVec.getLsbD_eq_getElem, hi] using hbit

theorem or_eq_and_iff (a b : BitVec w) : a ||| b = a &&& b ↔ a = b := by
  constructor
  · intro h
    refine BitVec.eq_of_getLsbD_eq fun i hi => ?_
    have hbit := congrArg (fun v => v.getLsbD i) h
    simp only [BitVec.getLsbD_or, BitVec.getLsbD_and] at hbit
    revert hbit
    cases a.getLsbD i <;> cases b.getLsbD i <;> simp
  · rintro rfl
    simp

theorem xor_eq_or_iff (a b : BitVec w) : a ^^^ b = a ||| b ↔ a &&& b = 0#w := by
  constructor
  · intro h
    refine BitVec.eq_of_getLsbD_eq fun i hi => ?_
    have hbit := congrArg (fun v => v.getLsbD i) h
    simp only [BitVec.getLsbD_or, BitVec.getLsbD_xor] at hbit
    rw [BitVec.getLsbD_and, BitVec.getLsbD_zero]
    revert hbit
    cases a.getLsbD i <;> cases b.getLsbD i <;> simp
  · intro h
    refine BitVec.eq_of_getLsbD_eq fun i hi => ?_
    have hbit := congrArg (fun v => v.getLsbD i) h
    simp only [BitVec.getLsbD_and, BitVec.getLsbD_zero] at hbit
    rw [BitVec.getLsbD_or, BitVec.getLsbD_xor]
    revert hbit
    cases a.getLsbD i <;> cases b.getLsbD i <;> simp

/-- A scaled sum with the first operand taken away and the second one added, either of which may be the
sum itself by then. -/
theorem scaled_eq_add_iff {p q : Prop} [Decidable p] [Decidable q] (a b s : BitVec w)
    (hab : p → q → b = a) :
    a + b * s - (if p then a + b * s else a) + (if q then a + b * s else b) = a + b ↔
      if p then if q then a * s = a else a = 0 else if q then 2 * (b * s) = b else b * s = a := by
  by_cases hp : p <;> by_cases hq : q <;> simp only [hp, hq, if_true, if_false]
  · obtain rfl := hab hp hq
    exact ⟨fun h => by linear_combination h, fun h => by linear_combination h⟩
  · exact ⟨fun h => by linear_combination -h, fun h => by linear_combination -h⟩
  · exact ⟨fun h => by linear_combination h, fun h => by linear_combination h⟩
  · exact ⟨fun h => by linear_combination h, fun h => by linear_combination h⟩

end Words

/-! ## What the sequences compute -/

theorem temporary_tempOf (base : Text) (k : ℕ) : Temporary (tempOf base k) :=
  temporary_tempName _ _

section Sequences

variable {w : ℕ} {m n : Machine w} {inst : Instruction} {d : Rng}

theorem run_nil : run m [] = m := rfl

theorem run_cons (i : Instruction) (is : List Instruction) : run m (i :: is) = run (step m i) is := rfl

theorem run_append (is js : List Instruction) : run m (is ++ js) = run (run m is) js :=
  List.foldl_append

theorem step_makeMov (r s : Text) : step m (makeMov r s) = m.assign r (m.read s) := rfl

theorem step_neg (r s : Text) :
    step m { type := .neg, operand1 := s, result := r } = m.assign r (-m.read s) := rfl

theorem step_lea (r a b : Text) :
    step m (makeBinary .lea r a b) = m.assign r (m.read a + m.read b) := rfl

theorem step_shl (r a b : Text) :
    step m (makeBinary .shl r a b) = m.assign r (m.read a <<< (m.read b).toNat) := rfl

theorem step_makeAdd (r a b : Text) : step m (makeAdd r a b) = m.assign r (m.read a + m.read b) := rfl

theorem step_makeSub (r a b : Text) : step m (makeSub r a b) = m.assign r (m.read a - m.read b) := rfl

theorem step_makeMulInst (r a b : Text) :
    step m (makeMulInst r a b) = m.assign r (m.read a * m.read b) := rfl

theorem step_makeXor (r a b : Text) :
    step m (makeXor r a b) = m.assign r (m.read a ^^^ m.read b) := rfl

theorem step_makeNand (r a b : Text) :
    step m (makeNand r a b) = m.assign r (~~~(m.read a &&& m.read b)) := rfl

theorem read_temp_self (base : Text) (k : ℕ) (v : BitVec w) :
    (m.assign (tempOf base k) v).read (tempOf base k) = v :=
  Machine.read_assign_self (isVar_of_temporary (temporary_tempOf base k)) v

theorem read_temp_clean {s : Text} (hs : Clean s) (base : Text) (k : ℕ) (v : BitVec w) :
    (m.assign (tempOf base k) v).read s = m.read s :=
  Machine.read_assign_of_notMem (fun h => hs _ h (temporary_tempOf base k)) v

theorem read_temp_of_ne {base base' : Text} (hb : base.length ≤ 40) (hb' : base'.length ≤ 40)
    (hne : base ≠ base') (k k' : ℕ) (v : BitVec w) :
    (m.assign (tempOf base k) v).read (tempOf base' k') = m.read (tempOf base' k') := by
  refine Machine.read_assign_of_notMem ?_ v
  rw [isVar_of_temporary (temporary_tempOf base' k'), Expr.vars, List.mem_singleton]
  intro h
  exact hne (tempName_inj hb hb' (by omega) (by omega) h).1

theorem read_temp_of_result {r : Text} (hr : ¬ Temporary r) (base : Text) (k : ℕ) (v : BitVec w) :
    (m.assign r v).read (tempOf base k) = m.read (tempOf base k) := by
  have ht := temporary_tempOf base k
  refine Machine.read_assign_of_notMem ?_ v
  rw [isVar_of_temporary ht, Expr.vars, List.mem_singleton]
  rintro rfl
  exact hr ht

theorem read_nil : m.read [] = 0#w := by
  rw [Machine.read, show readOperand [] = .const 0 from rfl, Expr.eval]
  simp

theorem read_plain {a : Text} (ha : Plain a) : m.read a = (atom a).eval m.vars := by
  rw [Machine.read, readOperand_plain ha]

theorem read_sum {a b : Text} (ha : Plain a) (hb : Plain b) :
    m.read ("[".toList ++ a ++ " + ".toList ++ b ++ "]".toList) = m.read a + m.read b := by
  rw [read_plain ha, read_plain hb, Machine.read, readOperand_sum b ha, Expr.eval]

theorem read_negated {a : Text} (ha : Plain a) :
    m.read ("-(".toList ++ a ++ ")".toList) = -m.read a := by
  rw [read_plain ha, Machine.read, readOperand_negated, Expr.eval]

theorem read_scaled {a : Text} (ha : Plain a) (k : ℕ) :
    m.read ("[".toList ++ a ++ " * ".toList ++ Nat.toDigits 10 k ++ "]".toList) =
      m.read a * BitVec.ofNat w k := by
  rw [read_plain ha, Machine.read, readOperand_scaled _ ha, atom_toDigits, Expr.eval, Expr.eval,
    BitVec.ofInt_natCast]

theorem read_assign_plain {r s : Text} (hr : IsVar r) (hs : Plain s) (v : BitVec w) :
    (m.assign r v).read s = if s = r then v else m.read s := by
  split_ifs with h
  · rw [h, Machine.read_assign_self hr]
  · exact Machine.read_assign_of_notMem (fun hmem => h (vars_plain hs r hmem).symm) v

theorem read_minus_one : m.read "-1".toList = BitVec.allOnes w := by
  have h : readOperand "-1".toList = .const (-1) := by decide
  rw [Machine.read, h, Expr.eval, BitVec.ofInt_neg, ← BitVec.neg_one_eq_allOnes]
  rfl

theorem read_one : m.read "1".toList = 1#w := by
  have h : readOperand "1".toList = .const 1 := by decide
  rw [Machine.read, h, Expr.eval]
  simp

theorem read_two : m.read "2".toList = 2#w := by
  have h : readOperand "2".toList = .const 2 := by decide
  rw [Machine.read, h, Expr.eval]
  simp

/-- After the sequence the result holds the value, and nothing else has changed. -/
def Leaves (m : Machine w) (seq : List Instruction) (r : Text) (v : BitVec w) : Prop :=
  Agree (run m seq) (m.assign r v)

/-- The shape that a sequence has after its temporaries have been set. -/
theorem agree_result {r : Text} {v v' : BitVec w} (h : Agree n m) (hv : v = v') :
    Agree (n.assign r v) (m.assign r v') :=
  hv ▸ h.assign r v

theorem agree_temp_iff (base : Text) (k : ℕ) (v : BitVec w) :
    Agree (m.assign (tempOf base k) v) n ↔ Agree m n :=
  ⟨fun h => ((Agree.refl m).assign_temp (temporary_tempOf base k) v).symm.trans h,
    fun h => h.assign_temp (temporary_tempOf base k) v⟩

theorem leaves_and (d : Rng) : Leaves m (substituteAndInst inst d).1 inst.result
    (m.read inst.operand1 &&& m.read inst.operand2) := by
  have hseq : (substituteAndInst inst d).1 =
      [makeNand (tempOf "and".toList (d 0)) inst.operand1 inst.operand2,
        makeNand inst.result (tempOf "and".toList (d 0)) (tempOf "and".toList (d 0))] := rfl
  rw [Leaves, hseq]
  simp only [run_cons, run_nil, step_makeNand, read_temp_self]
  exact agree_result (by simp only [agree_temp_iff, Agree.refl]) (nand_nand _ _)

theorem leaves_or (hb : Clean inst.operand2) (d : Rng) : Leaves m (substituteOrInst inst d).1 inst.result
    (m.read inst.operand1 ||| m.read inst.operand2) := by
  have hseq : (substituteOrInst inst d).1 =
      [makeNand (tempOf "or".toList (d 0)) inst.operand1 inst.operand1,
        makeNand (tempOf "r".toList (d 1)) inst.operand2 inst.operand2,
        makeNand inst.result (tempOf "or".toList (d 0)) (tempOf "r".toList (d 1))] := rfl
  rw [Leaves, hseq]
  simp (disch := first | assumption | decide) only [run_cons, run_nil, step_makeNand,
    read_temp_self, read_temp_clean, read_temp_of_ne]
  exact agree_result (by simp only [agree_temp_iff, Agree.refl]) (nand_not_not _ _)

/-- Four negated conjunctions compute the exclusive disjunction. -/
theorem leaves_fourNands {x y z a b : Text} (hx : x.length ≤ 40) (hy : y.length ≤ 40) (hz : z.length ≤ 40)
    (hyx : y ≠ x) (hzy : z ≠ y) (ha : Clean a) (hb : Clean b) (r : Text) (i j k : ℕ) :
    Leaves m [makeNand (tempOf x i) a b, makeNand (tempOf y j) a (tempOf x i),
      makeNand (tempOf z k) b (tempOf x i), makeNand r (tempOf y j) (tempOf z k)] r (m.read a ^^^ m.read b) := by
  rw [Leaves]
  simp (disch := assumption) only [run_cons, run_nil, step_makeNand, read_temp_self, read_temp_clean,
    read_temp_of_ne]
  exact agree_result (by simp only [agree_temp_iff, Agree.refl]) (nand_xor _ _)

theorem leaves_xor (ha : Clean inst.operand1) (hb : Clean inst.operand2) (d : Rng) :
    Leaves m (substituteXorInst inst d).1 inst.result
      (m.read inst.operand1 ^^^ m.read inst.operand2) :=
  leaves_fourNands (by decide) (by decide) (by decide) (by decide) (by decide) ha hb _ _ _ _

/-- This sequence computes the disjunction. -/
theorem leaves_andNandVariant (hb : Clean inst.operand2) (d : Rng) :
    Leaves m (substituteAndNandVariant inst d).1 inst.result
      (m.read inst.operand1 ||| m.read inst.operand2) := by
  have hseq : (substituteAndNandVariant inst d).1 =
      [makeNand (tempOf "av".toList (d 0)) inst.operand1 inst.operand1,
        makeNand (tempOf "av2".toList (d 1)) inst.operand2 inst.operand2,
        makeNand (tempOf "av".toList (d 0)) (tempOf "av".toList (d 0)) (tempOf "av2".toList (d 1)),
        makeNand (tempOf "av2".toList (d 1)) (tempOf "av".toList (d 0)) (tempOf "av".toList (d 0)),
        makeNand inst.result (tempOf "av2".toList (d 1)) (tempOf "av2".toList (d 1))] := rfl
  rw [Leaves, hseq]
  simp (disch := first | assumption | decide) only [run_cons, run_nil, step_makeNand,
    read_temp_self, read_temp_clean, read_temp_of_ne]
  refine agree_result (by simp only [agree_temp_iff, Agree.refl]) ?_
  rw [nand_nand, BitVec.and_self, nand_not_not]

/-- This sequence computes the exclusive disjunction. -/
theorem leaves_orNandVariant (ha : Clean inst.operand1) (hb : Clean inst.operand2) (d : Rng) :
    Leaves m (substituteOrNandVariant inst d).1 inst.result
      (m.read inst.operand1 ^^^ m.read inst.operand2) :=
  leaves_fourNands (by decide) (by decide) (by decide) (by decide) (by decide) ha hb _ _ _ _

theorem leaves_xorNandVariant (ha : Clean inst.operand1) (hb : Clean inst.operand2) (d : Rng) :
    Leaves m (substituteXorNandVariant inst d).1 inst.result
      (m.read inst.operand1 ^^^ m.read inst.operand2) := by
  have hseq : (substituteXorNandVariant inst d).1 =
      [makeNand (tempOf "xv".toList (d 0)) inst.operand1 inst.operand1,
        makeNand (tempOf "xv2".toList (d 1)) inst.operand2 inst.operand2,
        makeNand (tempOf "xv3".toList (d 2)) (tempOf "xv".toList (d 0)) (tempOf "xv2".toList (d 1)),
        makeNand (tempOf "xv".toList (d 0)) inst.operand1 inst.operand2,
        makeNand (tempOf "xv4".toList (d 3)) (tempOf "xv3".toList (d 2)) (tempOf "xv".toList (d 0)),
        makeNand inst.result (tempOf "xv4".toList (d 3)) (tempOf "xv4".toList (d 3))] := rfl
  rw [Leaves, hseq]
  simp (disch := first | assumption | decide) only [run_cons, run_nil, step_makeNand,
    read_temp_self, read_temp_clean, read_temp_of_ne]
  refine agree_result (by simp only [agree_temp_iff, Agree.refl]) ?_
  rw [nand_nand, nand_not_not, or_and_nand]

theorem leaves_not (ha : Clean inst.operand1) (d : Rng) :
    Leaves m (substituteNotInst inst d).1 inst.result (~~~m.read inst.operand1) := by
  have hseq : (substituteNotInst inst d).1 =
      [makeMov (tempOf "not".toList (d 0)) "-1".toList,
        makeXor inst.result inst.operand1 (tempOf "not".toList (d 0))] := rfl
  rw [Leaves, hseq]
  simp (disch := assumption) only [run_cons, run_nil, step_makeMov, step_makeXor, read_temp_self,
    read_temp_clean]
  refine agree_result (by simp only [agree_temp_iff, Agree.refl]) ?_
  rw [read_minus_one, BitVec.xor_allOnes]

theorem leaves_neg (ha : Clean inst.operand1) (d : Rng) :
    Leaves m (substituteNegInst inst d).1 inst.result (-m.read inst.operand1) := by
  have hseq : (substituteNegInst inst d).1 =
      [makeMov (tempOf "not".toList (d 1)) "-1".toList,
        makeXor (tempOf "neg".toList (d 0)) inst.operand1 (tempOf "not".toList (d 1)),
        makeAdd inst.result (tempOf "neg".toList (d 0)) "1".toList] := rfl
  have hone : Clean "1".toList := by decide
  rw [Leaves, hseq]
  simp (disch := assumption) only [run_cons, run_nil, step_makeMov, step_makeXor, step_makeAdd,
    read_temp_self, read_temp_clean]
  refine agree_result (by simp only [agree_temp_iff, Agree.refl]) ?_
  rw [read_minus_one, BitVec.xor_allOnes, read_one, BitVec.neg_eq_not_add]

theorem leaves_sub (ha : Clean inst.operand1) (d : Rng) :
    Leaves m (substituteSubInst inst d).1 inst.result
      (m.read inst.operand1 - m.read inst.operand2) := by
  have hseq : (substituteSubInst inst d).1 =
      [{ type := .neg, operand1 := inst.operand2, result := tempOf inst.operand2 (d 0) },
        makeAdd inst.result inst.operand1 (tempOf inst.operand2 (d 0))] := rfl
  rw [Leaves, hseq]
  simp (disch := assumption) only [run_cons, run_nil, step_neg, step_makeAdd, read_temp_self,
    read_temp_clean]
  exact agree_result (by simp only [agree_temp_iff, Agree.refl]) (BitVec.sub_eq_add_neg _ _).symm

theorem leaves_subNegAdc (ha : Clean inst.operand1) (d : Rng) :
    Leaves m (substituteSubNegAdc inst d).1 inst.result
      (m.read inst.operand1 - m.read inst.operand2) := by
  have hseq : (substituteSubNegAdc inst d).1 =
      [{ type := .neg, operand1 := inst.operand2, result := tempOf "n".toList (d 0) },
        makeMov (tempOf "c".toList (d 1)) "0".toList, makeMov (tempOf "nc".toList (d 2)) "-1".toList,
        makeXor (tempOf "nc".toList (d 2)) "0".toList (tempOf "not".toList (d 3)),
        makeAdd inst.result inst.operand1 (tempOf "n".toList (d 0))] := rfl
  rw [Leaves, hseq]
  simp (disch := first | assumption | decide) only [run_cons, run_nil, step_neg, step_makeMov,
    step_makeXor, step_makeAdd, read_temp_self, read_temp_clean, read_temp_of_ne]
  exact agree_result (by simp only [agree_temp_iff, Agree.refl]) (BitVec.sub_eq_add_neg _ _).symm

theorem leaves_div (ha : Clean inst.operand1) (d : Rng) :
    Leaves m (substituteDivInst inst d).1 inst.result
      (if inst.operand2 = "2".toList then (3 * m.read inst.operand1) <<< (2#w).toNat
        else 3 * m.read inst.operand1) := by
  have hthree : ∀ a : BitVec w, a + a + a = 3 * a := fun a => by ring
  have htwo : Clean "2".toList := by decide
  have hseq : (substituteDivInst inst d).1 =
      [makeAdd (tempOf "div".toList (d 0)) inst.operand1 inst.operand1,
        makeAdd (tempOf "d".toList (d 1)) (tempOf "div".toList (d 0)) inst.operand1] ++
        (if inst.operand2 = "2".toList then
          [makeBinary .shl (tempOf "d".toList (d 1)) (tempOf "d".toList (d 1)) "2".toList] else []) ++
        [makeMov inst.result (tempOf "d".toList (d 1))] := rfl
  rw [Leaves, hseq]
  by_cases h2 : inst.operand2 = "2".toList
  · simp (disch := assumption) only [if_pos h2, List.cons_append, List.nil_append, run_cons, run_nil,
      step_makeAdd, step_shl, step_makeMov, read_temp_self, read_temp_clean]
    refine agree_result (by simp only [agree_temp_iff, Agree.refl]) ?_
    rw [hthree, read_two]
  · simp (disch := assumption) only [if_neg h2, List.cons_append, List.nil_append, run_cons, run_nil,
      step_makeAdd, step_makeMov, read_temp_self, read_temp_clean]
    exact agree_result (by simp only [agree_temp_iff, Agree.refl]) (hthree _)

theorem sums_spec (base : String) (addend : Text → Text) (f : BitVec w → BitVec w)
    (hf : ∀ n acc, Agree n m → Temporary acc → n.read (addend acc) = f (n.read acc)) (k : ℕ)
    {acc : Text} (hn : Agree n m) (hacc : Temporary acc) (d : Rng) :
    Agree (run n (sums base addend k acc d).1.1) m ∧
      (run n (sums base addend k acc d).1.1).read (sums base addend k acc d).1.2 =
        (fun v => v + f v)^[k] (n.read acc) := by
  induction k generalizing n acc d with
  | zero => exact ⟨hn, rfl⟩
  | succ k ih =>
    have hseq : sums base addend (k + 1) acc d =
        let rest := sums base addend k (tempOf base.toList (d 0)) fun n => d (n + 1)
        ((makeAdd (tempOf base.toList (d 0)) acc (addend acc) :: rest.1.1, rest.1.2), rest.2) := rfl
    have ht := temporary_tempOf base.toList (d 0)
    have hvalue := hf n acc hn hacc
    rw [hseq]
    simp only [run_cons, step_makeAdd, Function.iterate_succ_apply]
    have h := ih (hn.assign_temp ht (n.read acc + n.read (addend acc))) ht fun n => d (n + 1)
    rw [read_temp_self] at h
    rw [hvalue] at h ⊢
    exact h

theorem leaves_mul (ha : Clean inst.operand1) (d : Rng) :
    Leaves m (substituteMulInst inst d).1 inst.result
      (BitVec.ofNat w (2 + d 0 % 4) * m.read inst.operand1) := by
  have hseq : (substituteMulInst inst d).1 =
      let acc := tempOf "mul".toList (d 1)
      let adds := sums "m" (fun _ => inst.operand1) (d 0 % 4 + 1) acc fun n => d (n + 2)
      makeMov acc inst.operand1 :: adds.1.1 ++ [makeMov inst.result adds.1.2] := by
    have hk : 2 + d 0 % 4 - 1 = d 0 % 4 + 1 := by omega
    rw [← hk]
    rfl
  have ht := temporary_tempOf "mul".toList (d 1)
  obtain ⟨hagree, hvalue⟩ := sums_spec "m" (fun _ => inst.operand1)
    (fun _ => m.read inst.operand1) (fun _ _ hn _ => hn.read ha) (d 0 % 4 + 1)
    ((Agree.refl m).assign_temp ht (m.read inst.operand1)) ht fun n => d (n + 2)
  rw [Leaves, hseq]
  simp only [List.cons_append, run_cons, run_append, run_nil, step_makeMov]
  refine agree_result hagree ?_
  rw [hvalue, read_temp_self, add_right_iterate]
  exact sum_eq_mul _ _

theorem leaves_shl (d : Rng) :
    Leaves m (substituteShlInst inst d).1 inst.result
      (m.read inst.operand1 <<< doublings inst.operand2) := by
  have hseq : (substituteShlInst inst d).1 =
      let acc := tempOf "shl".toList (d 0)
      let adds := sums "s" id (doublings inst.operand2) acc fun n => d (n + 1)
      makeMov acc inst.operand1 :: adds.1.1 ++ [makeMov inst.result adds.1.2] := rfl
  have ht := temporary_tempOf "shl".toList (d 0)
  obtain ⟨hagree, hvalue⟩ := sums_spec "s" id id (fun _ _ _ _ => rfl)
    (doublings inst.operand2) ((Agree.refl m).assign_temp ht (m.read inst.operand1)) ht
    fun n => d (n + 1)
  rw [Leaves, hseq]
  simp only [List.cons_append, run_cons, run_append, run_nil, step_makeMov]
  refine agree_result hagree ?_
  rw [hvalue, read_temp_self]
  exact iterate_double _ _

theorem leaves_karatsuba (hr : ¬ Temporary inst.result) (ha : Clean inst.operand1) (hb : Clean inst.operand2)
    (hbHi : Clean (inst.operand2 ++ "_hi".toList)) (d : Rng) :
    Leaves m (substituteMulKaratsuba inst d).1 inst.result
      ((m.read inst.operand1 + m.read (inst.operand1 ++ "_hi".toList)) *
        (m.read inst.operand2 + m.read (inst.operand2 ++ "_hi".toList))) := by
  have hseq : (substituteMulKaratsuba inst d).1 =
      [makeMov (tempOf "ahi".toList (d 0)) (inst.operand1 ++ "_hi".toList),
        makeMov (tempOf "alo".toList (d 1)) inst.operand1,
        makeMov (tempOf "bhi".toList (d 2)) (inst.operand2 ++ "_hi".toList),
        makeMov (tempOf "blo".toList (d 3)) inst.operand2,
        makeMulInst (tempOf "z0".toList (d 4)) (tempOf "alo".toList (d 1)) (tempOf "blo".toList (d 3)),
        makeMulInst (tempOf "z2".toList (d 6)) (tempOf "ahi".toList (d 0)) (tempOf "bhi".toList (d 2)),
        makeAdd (tempOf "p1".toList (d 7)) (tempOf "alo".toList (d 1)) (tempOf "ahi".toList (d 0)),
        makeAdd (tempOf "p2".toList (d 8)) (tempOf "blo".toList (d 3)) (tempOf "bhi".toList (d 2)),
        makeMulInst (tempOf "z1".toList (d 5)) (tempOf "p1".toList (d 7)) (tempOf "p2".toList (d 8)),
        makeSub (tempOf "z1".toList (d 5)) (tempOf "z1".toList (d 5)) (tempOf "z0".toList (d 4)),
        makeSub (tempOf "z1".toList (d 5)) (tempOf "z1".toList (d 5)) (tempOf "z2".toList (d 6)),
        makeAdd inst.result (tempOf "z0".toList (d 4)) (tempOf "z1".toList (d 5)),
        makeAdd inst.result inst.result (tempOf "z2".toList (d 6))] := rfl
  rw [Leaves, hseq]
  simp (disch := first | assumption | decide) only [run_cons, run_nil, step_makeMov, step_makeAdd,
    step_makeSub, step_makeMulInst, read_temp_self, read_temp_clean, read_temp_of_ne,
    read_temp_of_result, Machine.assign_assign]
  by_cases hvar : IsVar inst.result
  · rw [Machine.read_assign_self hvar]
    exact agree_result (by simp only [agree_temp_iff, Agree.refl]) (by ring)
  · simp only [Machine.assign_of_not hvar, agree_temp_iff, Agree.refl]

theorem leaves_addInst (ha : Plain inst.operand1) (hb : Plain inst.operand2) (d : Rng) :
    Leaves m ((do return [← substituteAddInst inst] : StateM Rng (List Instruction)) d).1 inst.result
      (if d 0 % 3 = 1 then m.read inst.operand1 ^^^ m.read inst.operand2
        else m.read inst.operand1 + m.read inst.operand2) := by
  have hone : ((do return [← substituteAddInst inst] : StateM Rng (List Instruction)) d).1 =
      [(substituteAddInst inst d).1] := rfl
  have hseq : (substituteAddInst inst d).1 =
      if d 0 % 3 = 0 then
        makeBinary .lea inst.result
          ("[".toList ++ inst.operand1 ++ " + ".toList ++ inst.operand2 ++ "]".toList) []
      else if d 0 % 3 = 1 then makeXor inst.result inst.operand1 inst.operand2
      else makeSub inst.result inst.operand1 ("-(".toList ++ inst.operand2 ++ ")".toList) := by
    simp only [substituteAddInst, bind, StateT.bind, rng]
    split_ifs <;> rfl
  rw [Leaves, hone, hseq]
  split_ifs with h0 h1
  · omega
  · rw [run_cons, run_nil, step_lea, read_sum ha hb, read_nil, BitVec.add_zero]
    exact Agree.refl _
  · rw [run_cons, run_nil, step_makeXor]
    exact Agree.refl _
  · rw [run_cons, run_nil, step_makeSub, read_negated hb, BitVec.sub_neg]
    exact Agree.refl _

/-- The second sequence of an addition takes the first operand away again, and what it takes away and
what it adds last is read after the result has been written. -/
theorem leaves_addLeaScaled (ha : Plain inst.operand1) (hb : Plain inst.operand2)
    (hcb : Clean inst.operand2) (d : Rng) :
    Leaves m (substituteAddLeaScaled inst d).1 inst.result
      (let a := m.read inst.operand1
       let b := m.read inst.operand2
       let x := a + b * BitVec.ofNat w (2 ^ (d 0 % 4))
       if d 0 % 4 = 0 then a + b
       else x - (if inst.operand1 = inst.result then x else a) +
        if inst.operand2 = inst.result then x else b) := by
  have hseq : (substituteAddLeaScaled inst d).1 =
      let scaled := "[".toList ++ inst.operand2 ++ " * ".toList ++
        Nat.toDigits 10 (2 ^ (d 0 % 4)) ++ "]".toList
      let lea := makeBinary .lea inst.result inst.operand1 scaled
      if d 0 % 4 = 0 then [lea]
      else [lea, makeSub (tempOf "rem".toList (d 1)) inst.result inst.operand1,
        makeBinary .lea inst.result (tempOf "rem".toList (d 1)) inst.operand2] := by
    have hscale : 2 ^ (d 0 % 4) > 1 ↔ d 0 % 4 ≠ 0 := Nat.one_lt_two_pow_iff
    simp only [substituteAddLeaScaled, bind, StateT.bind, rng, hscale]
    by_cases h0 : d 0 % 4 = 0
    · rw [if_neg (not_not.mpr h0), if_pos h0]
      rfl
    · rw [if_pos h0, if_neg h0]
      rfl
  rw [Leaves, hseq]
  by_cases h0 : d 0 % 4 = 0
  · simp only [h0, if_true, run_cons, run_nil, step_lea, read_scaled hb]
    exact agree_result (Agree.refl m) (by simp)
  · simp only [if_neg h0, run_cons, run_nil, step_lea, step_makeSub, read_scaled hb, read_temp_self,
      read_temp_clean hcb]
    by_cases hvar : IsVar inst.result
    · rw [Machine.read_assign_self hvar, read_assign_plain hvar ha, read_assign_plain hvar hb]
      refine Agree.trans (Agree.assign ((agree_temp_iff _ _ _).mpr (Agree.refl _)) _ _) ?_
      rw [Machine.assign_assign]
      exact Agree.refl _
    · simp only [Machine.assign_of_not hvar, agree_temp_iff, Agree.refl]

end Sequences

/-! ## When the pass is right -/

section Pass

variable {w : ℕ}

/-- The operands on which the chosen sequence of an instruction leaves the value of the instruction:
`a` and `b` are their values, `aHi` and `bHi` those of the variables that end in `_hi`. -/
def ExactOn (d : Rng) (inst : Instruction) (a b aHi bHi : BitVec w) : Prop :=
  match inst.type with
  | .add =>
    if d 0 % 2 = 0 then d 1 % 3 = 1 → (a &&& b) <<< 1 = 0
    else d 1 % 4 ≠ 0 →
      let s := BitVec.ofNat w (2 ^ (d 1 % 4))
      if inst.operand1 = inst.result then
        if inst.operand2 = inst.result then a * s = a else a = 0
      else if inst.operand2 = inst.result then 2 * (b * s) = b else b * s = a
  | .mul =>
    if d 0 % 2 = 0 then BitVec.ofNat w (2 + d 1 % 4) * a = a * b
    else a * bHi + aHi * (b + bHi) = 0
  | .div => if inst.operand2 = "2".toList then (3 * a) <<< (2#w).toNat = a / b else 3 * a = a / b
  | .and => d 0 % 2 = 0 ∨ a = b
  | .or => d 0 % 2 = 0 ∨ a &&& b = 0
  | .shl => a <<< doublings inst.operand2 = a <<< b.toNat
  | _ => True

/-- The values that `ExactOn` asks for, in a state. An instruction without a result has no value. -/
def Exact (s : Machine w × Rng) (inst : Instruction) : Prop :=
  IsVar inst.result →
    ExactOn s.2 inst (s.1.read inst.operand1) (s.1.read inst.operand2)
      (s.1.read (inst.operand1 ++ "_hi".toList)) (s.1.read (inst.operand2 ++ "_hi".toList))

/-- The instructions that the pass replaces. -/
def InstType.Replaced (t : InstType) : Prop :=
  t ∈ [InstType.add, .sub, .mul, .div, .and, .or, .xor, .not, .neg, .shl]

instance (t : InstType) : Decidable t.Replaced := inferInstanceAs (Decidable (_ ∈ _))

variable {inst : Instruction} {n : Machine w} {d : Rng}

/-- An instruction beside what the pass puts in its place: the two leave a value in the result, and it
is the same on the operands of `ExactOn`. -/
structure Spec (n : Machine w) (d : Rng) (inst : Instruction) (v orig : BitVec w) : Prop where
  source : step n inst = n.assign inst.result orig
  target : Leaves n (substituteInst inst d).1 inst.result v
  exact_iff : v = orig ↔
    ExactOn d inst (n.read inst.operand1) (n.read inst.operand2)
      (n.read (inst.operand1 ++ "_hi".toList)) (n.read (inst.operand2 ++ "_hi".toList))

theorem step_of_value {v : BitVec w} (ht : inst.type.Replaced)
    (hv : inst.type.value (n.read inst.operand1) (n.read inst.operand2) = some v) :
    step n inst = n.assign inst.result v := by
  unfold step
  split <;> simp_all [InstType.Replaced]

theorem leaves_eitherOf {f g : StateM Rng (List Instruction)} {r : Text} {v v' : BitVec w}
    (hf : Leaves n (f fun k => d (k + 1)).1 r v) (hg : Leaves n (g fun k => d (k + 1)).1 r v') :
    Leaves n (eitherOf f g d).1 r (if d 0 % 2 = 0 then v else v') := by
  have heq : eitherOf f g d =
      if d 0 % 2 = 0 then f fun k => d (k + 1) else g fun k => d (k + 1) := by
    simp only [eitherOf, bind, StateT.bind, rng]
    split_ifs <;> rfl
  rw [heq]
  split_ifs
  · exact hf
  · exact hg

theorem exists_spec {f : StateM Rng (List Instruction)} {v orig : BitVec w}
    (hpass : substituteInst inst = f) (htarget : Leaves n (f d).1 inst.result v)
    (ht : inst.type.Replaced)
    (hv : inst.type.value (n.read inst.operand1) (n.read inst.operand2) = some orig)
    (hiff : v = orig ↔
      ExactOn d inst (n.read inst.operand1) (n.read inst.operand2)
        (n.read (inst.operand1 ++ "_hi".toList)) (n.read (inst.operand2 ++ "_hi".toList))) :
    ∃ v orig, Spec n d inst v orig :=
  ⟨v, orig, step_of_value ht hv, hpass ▸ htarget, hiff⟩

theorem spec_add (h : inst.type = .add) (hpa : Plain inst.operand1) (hpb : Plain inst.operand2)
    (hb : Clean inst.operand2) : ∃ v orig, Spec n d inst v orig := by
  have hpass : substituteInst inst =
      eitherOf (do return [← substituteAddInst inst]) (substituteAddLeaScaled inst) := by
    simp only [substituteInst, h]
  refine exists_spec hpass (leaves_eitherOf (leaves_addInst hpa hpb _) (leaves_addLeaScaled hpa hpb hb _))
    (by simp [h, InstType.Replaced]) (by rw [h]; rfl) ?_
  simp only [ExactOn, h, Nat.zero_add]
  by_cases h0 : d 0 % 2 = 0
  · simp only [if_pos h0]
    by_cases h1 : d 1 % 3 = 1
    · simpa [h1] using xor_eq_add_iff _ _
    · simp [h1]
  · simp only [if_neg h0]
    by_cases h1 : d 1 % 4 = 0
    · simp [h1]
    · simp only [ne_eq, h1, not_false_eq_true, if_false, true_imp_iff]
      refine scaled_eq_add_iff _ _ _ fun hp hq => ?_
      rw [hp, hq]

theorem spec_sub (h : inst.type = .sub) (ha : Clean inst.operand1) : ∃ v orig, Spec n d inst v orig := by
  have hpass : substituteInst inst =
      eitherOf (substituteSubInst inst) (substituteSubNegAdc inst) := by
    simp only [substituteInst, h]
  refine exists_spec hpass (leaves_eitherOf (leaves_sub ha _) (leaves_subNegAdc ha _))
    (by simp [h, InstType.Replaced]) (by rw [h]; rfl) ?_
  simp [ExactOn, h]

theorem spec_mul (h : inst.type = .mul) (hr : ¬ Temporary inst.result) (ha : Clean inst.operand1)
    (hb : Clean inst.operand2) (hbHi : Clean (inst.operand2 ++ "_hi".toList)) :
    ∃ v orig, Spec n d inst v orig := by
  have hpass : substituteInst inst =
      eitherOf (substituteMulInst inst) (substituteMulKaratsuba inst) := by
    simp only [substituteInst, h]
  refine exists_spec hpass (leaves_eitherOf (leaves_mul ha _) (leaves_karatsuba hr ha hb hbHi _))
    (by simp [h, InstType.Replaced]) (by rw [h]; rfl) ?_
  simp only [ExactOn, h, Nat.zero_add]
  split_ifs
  · exact Iff.rfl
  · constructor
    · intro heq
      linear_combination heq
    · intro heq
      linear_combination heq

theorem spec_div (h : inst.type = .div) (ha : Clean inst.operand1) : ∃ v orig, Spec n d inst v orig := by
  have hpass : substituteInst inst = substituteDivInst inst := by simp only [substituteInst, h]
  refine exists_spec hpass (leaves_div ha d) (by simp [h, InstType.Replaced]) (by rw [h]; rfl) ?_
  simp only [ExactOn, h]
  split_ifs <;> rfl

theorem spec_and (h : inst.type = .and) (hb : Clean inst.operand2) : ∃ v orig, Spec n d inst v orig := by
  have hpass : substituteInst inst =
      eitherOf (substituteAndInst inst) (substituteAndNandVariant inst) := by
    simp only [substituteInst, h]
  refine exists_spec hpass (leaves_eitherOf (leaves_and _) (leaves_andNandVariant hb _))
    (by simp [h, InstType.Replaced]) (by rw [h]; rfl) ?_
  simp only [ExactOn, h]
  split_ifs with h0
  · simp [h0]
  · simpa [h0] using or_eq_and_iff _ _

theorem spec_or (h : inst.type = .or) (ha : Clean inst.operand1) (hb : Clean inst.operand2) :
    ∃ v orig, Spec n d inst v orig := by
  have hpass : substituteInst inst =
      eitherOf (substituteOrInst inst) (substituteOrNandVariant inst) := by
    simp only [substituteInst, h]
  refine exists_spec hpass (leaves_eitherOf (leaves_or hb _) (leaves_orNandVariant ha hb _))
    (by simp [h, InstType.Replaced]) (by rw [h]; rfl) ?_
  simp only [ExactOn, h]
  split_ifs with h0
  · simp [h0]
  · simpa [h0] using xor_eq_or_iff _ _

theorem spec_xor (h : inst.type = .xor) (ha : Clean inst.operand1) (hb : Clean inst.operand2) :
    ∃ v orig, Spec n d inst v orig := by
  have hpass : substituteInst inst =
      eitherOf (substituteXorInst inst) (substituteXorNandVariant inst) := by
    simp only [substituteInst, h]
  refine exists_spec hpass (leaves_eitherOf (leaves_xor ha hb _) (leaves_xorNandVariant ha hb _))
    (by simp [h, InstType.Replaced]) (by rw [h]; rfl) ?_
  simp [ExactOn, h]

theorem spec_not (h : inst.type = .not) (ha : Clean inst.operand1) : ∃ v orig, Spec n d inst v orig := by
  have hpass : substituteInst inst = substituteNotInst inst := by simp only [substituteInst, h]
  refine exists_spec hpass (leaves_not ha d) (by simp [h, InstType.Replaced]) (by rw [h]; rfl) ?_
  simp [ExactOn, h]

theorem spec_neg (h : inst.type = .neg) (ha : Clean inst.operand1) : ∃ v orig, Spec n d inst v orig := by
  have hpass : substituteInst inst = substituteNegInst inst := by simp only [substituteInst, h]
  refine exists_spec hpass (leaves_neg ha d) (by simp [h, InstType.Replaced]) (by rw [h]; rfl) ?_
  simp [ExactOn, h]

theorem spec_shl (h : inst.type = .shl) : ∃ v orig, Spec n d inst v orig := by
  have hpass : substituteInst inst = substituteShlInst inst := by simp only [substituteInst, h]
  refine exists_spec hpass (leaves_shl d) (by simp [h, InstType.Replaced]) (by rw [h]; rfl) ?_
  simp [ExactOn, h]

theorem clean_operand1 (h : ∀ x ∈ inst.vars, ¬ Temporary x) : Clean inst.operand1 := fun x hx =>
  h x (by simp [Instruction.vars, hx])

theorem clean_operand2 (h : ∀ x ∈ inst.vars, ¬ Temporary x) : Clean inst.operand2 := fun x hx =>
  h x (by simp [Instruction.vars, hx])

theorem result_not_temporary (h : ∀ x ∈ inst.vars, ¬ Temporary x) : ¬ Temporary inst.result := fun ht =>
  h inst.result (by simp [Instruction.vars, isVar_of_temporary ht]) ht

theorem clean_hi {s : Text} (hs : Clean s) (hp : Plain s) : Clean (s ++ "_hi".toList) :=
  hs.append hp (by decide) (by decide) (by decide)

theorem exists_spec_of_replaced (h : ∀ x ∈ inst.vars, ¬ Temporary x) (ht : inst.type.Replaced)
    (hp : inst.type = .add ∨ inst.type = .mul → Plain inst.operand1 ∧ Plain inst.operand2) :
    ∃ v orig, Spec n d inst v orig := by
  have ha := clean_operand1 h
  have hb := clean_operand2 h
  simp only [InstType.Replaced, List.mem_cons, List.not_mem_nil, or_false] at ht
  rcases ht with ht | ht | ht | ht | ht | ht | ht | ht | ht | ht
  · exact spec_add ht (hp (.inl ht)).1 (hp (.inl ht)).2 hb
  · exact spec_sub ht ha
  · exact spec_mul ht (result_not_temporary h) ha hb (clean_hi hb (hp (.inr ht)).2)
  · exact spec_div ht ha
  · exact spec_and ht hb
  · exact spec_or ht ha hb
  · exact spec_xor ht ha hb
  · exact spec_not ht ha
  · exact spec_neg ht ha
  · exact spec_shl ht

theorem substituteInst_of_not_replaced (ht : ¬ inst.type.Replaced) :
    substituteInst inst = pure [inst] := by
  unfold substituteInst
  split <;> first | rfl | simp_all [InstType.Replaced]

theorem exact_of_not_replaced (ht : ¬ inst.type.Replaced) (s : Machine w × Rng) : Exact s inst := by
  intro _
  unfold ExactOn
  split <;> first | trivial | simp_all [InstType.Replaced]

variable {m : Machine w}

theorem exactOn_congr_hi (ht : inst.type ≠ .mul) (a b aHi bHi aHi' bHi' : BitVec w) :
    ExactOn d inst a b aHi bHi ↔ ExactOn d inst a b aHi' bHi' := by
  unfold ExactOn
  split
  case h_2 hmul => exact absurd hmul ht
  all_goals exact Iff.rfl

/-- The reads that `ExactOn` makes see no temporary. -/
theorem exact_congr (h : ∀ x ∈ inst.vars, ¬ Temporary x)
    (hp : inst.type = .add ∨ inst.type = .mul → Plain inst.operand1 ∧ Plain inst.operand2) (hmn : Agree m n) :
    Exact (m, d) inst ↔ Exact (n, d) inst := by
  have ha := clean_operand1 h
  have hb := clean_operand2 h
  simp only [Exact, hmn.read ha, hmn.read hb]
  by_cases hmul : inst.type = .mul
  · have hpmul := hp (.inr hmul)
    rw [hmn.read (clean_hi ha hpmul.1), hmn.read (clean_hi hb hpmul.2)]
  · exact forall_congr' fun _ => exactOn_congr_hi hmul _ _ _ _ _ _

theorem step_exact (h : ∀ x ∈ inst.vars, ¬ Temporary x)
    (hp : inst.type = .add ∨ inst.type = .mul → Plain inst.operand1 ∧ Plain inst.operand2) (hmn : Agree m n)
    (hexact : Exact (m, d) inst) : Agree (step m inst) (run n (substituteInst inst d).1) := by
  have hstep : Agree (step m inst) (step n inst) := hmn.step (clean_operand1 h) (clean_operand2 h)
  by_cases ht : inst.type.Replaced
  · obtain ⟨v, orig, hspec⟩ := exists_spec_of_replaced (n := n) (d := d) h ht hp
    refine hstep.trans (Agree.trans ?_ hspec.target.symm)
    rw [hspec.source]
    by_cases hvar : IsVar inst.result
    · have hexact' := (exact_congr h hp hmn).mp hexact hvar
      rw [hspec.exact_iff.mpr hexact']
      exact Agree.refl _
    · simp only [Machine.assign_of_not hvar, Agree.refl]
  · rw [substituteInst_of_not_replaced ht]
    exact hstep

/-- A step on other operands leaves another value in the result. -/
theorem step_not_exact (h : ∀ x ∈ inst.vars, ¬ Temporary x)
    (hp : inst.type = .add ∨ inst.type = .mul → Plain inst.operand1 ∧ Plain inst.operand2) (hmn : Agree m n)
    (hexact : ¬ Exact (m, d) inst) :
    inst.result ∈ inst.vars ∧
      (step m inst).vars inst.result ≠ (run n (substituteInst inst d).1).vars inst.result := by
  have ht : inst.type.Replaced := by
    by_contra ht
    exact hexact (exact_of_not_replaced ht _)
  have hr := result_not_temporary h
  obtain ⟨v, orig, hspec⟩ := exists_spec_of_replaced (n := n) (d := d) h ht hp
  rw [exact_congr h hp hmn, Exact, Classical.not_imp] at hexact
  obtain ⟨hvar, hne⟩ := hexact
  rw [← hspec.exact_iff] at hne
  refine ⟨by simp [Instruction.vars, hvar], ?_⟩
  rw [(hmn.step (clean_operand1 h) (clean_operand2 h)).vars _ hr, hspec.source, hspec.target.vars _ hr]
  simpa [Machine.assign, hvar, Machine.setVar] using Ne.symm hne

/-- `substitute_logic` along a block. The variables of the block hold the same values after each of its
instructions and after the ones put in their place, if and only if each instruction is executed on
operands on which its sequence is exact. -/
theorem substituteLogic_iff (block : List Instruction) (d : Rng) (m : Machine w)
    (hfresh : ∀ x ∈ names block, ¬ Temporary x)
    (hplain : ∀ i ∈ block, i.type = .add ∨ i.type = .mul → Plain i.operand1 ∧ Plain i.operand2) :
    (∀ pre, pre <+: block → ∀ x ∈ names block,
        (run m pre).vars x = (run m (substituteLogic pre d).1).vars x) ↔
      Guarded (stepWith step substituteInst) Exact (m, d) block := by
  have hvars : ∀ i ∈ block, ∀ x ∈ i.vars, ¬ Temporary x := fun i hi x hx =>
    hfresh x (List.mem_flatMap.mpr ⟨i, hi, hx⟩)
  refine prefixes_iff (R := Agree) (Q := fun m n => ∀ x ∈ names block, m.vars x = n.vars x)
    ?_ ?_ ?_ (Agree.refl m)
  · intro i hi m n d hmn hexact
    exact step_exact (hvars i hi) (hplain i hi) hmn hexact
  · intro i hi m n d hmn hexact hsame
    obtain ⟨hmem, hne⟩ := step_not_exact (hvars i hi) (hplain i hi) hmn hexact
    exact hne (hsame _ (List.mem_flatMap.mpr ⟨i, hi, hmem⟩))
  · intro m n hmn x hx
    exact hmn.vars x (hfresh x hx)

end Pass

def Machine.zero (w : ℕ) : Machine w := { vars := fun _ => 0, stack := [], memory := fun _ => 0 }

/-- The first block of `run_self_test`. -/
def selfTestBlock : List Instruction :=
  [makeMov "r0".toList "10".toList, makeAdd "r0".toList "r0".toList "5".toList]

/-- On this block the pass is right even where it takes the exclusive disjunction for the sum. -/
theorem substituteLogic_selfTestBlock :
    (∀ x ∈ names selfTestBlock, ¬ Temporary x) ∧
      ∀ pre, pre <+: selfTestBlock → ∀ x ∈ names selfTestBlock,
        (run (.zero 64) pre).vars x = (run (.zero 64) (substituteLogic pre id).1).vars x := by
  have hcarry : (10#64 &&& 5#64) <<< 1 = 0 := by decide
  refine ⟨by decide, (substituteLogic_iff selfTestBlock id (.zero 64) (by decide) (by decide)).mpr ?_⟩
  exact ⟨fun _ => trivial, fun _ _ => hcarry, trivial⟩

def incrementBlock : List Instruction :=
  [makeMov "r0".toList "1".toList, makeAdd "r0".toList "r0".toList "1".toList]

/-- One and one is two, and zero after the pass. -/
theorem substituteLogic_incrementBlock :
    "r0".toList ∈ names incrementBlock ∧ (∀ x ∈ names incrementBlock, ¬ Temporary x) ∧
      (run (.zero 64) incrementBlock).vars "r0".toList = 2 ∧
      (run (.zero 64) (substituteLogic incrementBlock id).1).vars "r0".toList = 0 := by
  decide

end SneppxAlg.Obfuscation
