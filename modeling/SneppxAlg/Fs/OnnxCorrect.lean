import SneppxAlg.Fs.Onnx

/-!
# What the validator accepts

The checks accept a model exactly if its initializers are named, their raw data has the size of their
elements modulo 2^64, what is to be present is present, and its nodes are connected
(`checkModel_iff`); the invariant of the loop over the nodes is that `decl` holds the graph inputs, the
initializers and the outputs of the nodes so far. The product of the dimensions wraps, so a huge tensor
passes with little raw data.

Main result: `validate_correct_iff`.
-/

namespace SneppxAlg.Onnx

/-! ## What is promised of an accepted model -/

/-- The size of the elements of an initializer. -/
def exactSize (it : OnnxVInit) : ℕ := (it.dims.map UInt64.toNat).prod * (elemSize it.dataType).toNat

/-- The raw data of every initializer has the size of its elements. -/
def Sized (m : OnnxModel) : Prop := ∀ it ∈ m.inits, it.rawLen.toNat = exactSize it

/-- The raw data of every initializer has the size of its elements modulo 2^64. -/
def WrapSized (m : OnnxModel) : Prop := ∀ it ∈ m.inits, it.rawLen.toNat = exactSize it % 2 ^ 64

/-- Every initializer has a name. -/
def Named (m : OnnxModel) : Prop := ∀ it ∈ m.inits, it.name ≠ none

/-- The graph inputs and the initializers. -/
def given (m : OnnxModel) : List (Option Str) := m.inNames ++ m.inits.map OnnxVInit.name

def declared (decl : List (Option Str)) (nds : List OnnxVNode) : List (Option Str) :=
  decl ++ (nds.flatMap OnnxVNode.outputs).map some

/-- Every input of a node is declared before the node, and none of its outputs is. -/
structure ConnectedFrom (decl : List (Option Str)) (nds : List OnnxVNode) : Prop where
  inputs : ∀ front nd back, nds = front ++ nd :: back → ∀ x ∈ nd.inputs, some x ∈ declared decl front
  outputs : ∀ front nd back, nds = front ++ nd :: back →
    nd.outputs.Nodup ∧ ∀ x ∈ nd.outputs, some x ∉ declared decl front

/-- The nodes are connected, and every graph output is declared. -/
structure Connected (m : OnnxModel) : Prop where
  nodes : ConnectedFrom (given m) m.nodes
  graphOutputs : ∀ o ∈ m.outNames, o ≠ none ∧ o ∈ declared (given m) m.nodes

def Supported (it : OnnxVInit) : Prop := it.dataType = 1 ∨ it.dataType = 10 ∨ it.dataType = 11

def HasOpType (nd : OnnxVNode) : Prop := nd.opType ≠ none ∧ nd.opType ≠ some []

/-- The versions, the graph name, supported data types and op types are there. -/
structure Present (m : OnnxModel) : Prop where
  irVersion : m.irVersion ≠ 0
  opsetVersion : m.opsetVersion ≠ 0
  gname : m.gname ≠ none
  dataTypes : ∀ it ∈ m.inits, Supported it
  opTypes : ∀ nd ∈ m.nodes, HasOpType nd

/-! ## The loops -/

variable {decl decl' : List (Option Str)}

theorem bind_eq_ok_iff {α β : Type} {x : Except Rejection α} {f : α → Except Rejection β} {b : β} :
    (x >>= f) = .ok b ↔ ∃ a, x = .ok a ∧ f a = .ok b := by
  cases x with
  | error e => exact iff_of_false (fun h => by cases h) fun ⟨a, h, _⟩ => by cases h
  | ok a => exact ⟨fun h => ⟨a, rfl, h⟩, fun ⟨a', ha, h⟩ => by cases ha; exact h⟩

theorem seq_eq_ok_iff {β : Type} {x : Except Rejection Unit} {f : Unit → Except Rejection β} {b : β} :
    (x >>= f) = .ok b ↔ x = .ok () ∧ f () = .ok b := by
  rw [bind_eq_ok_iff]
  exact ⟨fun ⟨_, hx, hf⟩ => ⟨hx, hf⟩, fun ⟨hx, hf⟩ => ⟨(), hx, hf⟩⟩

theorem nameIn_iff {name : Option Str} : nameIn name decl = true ↔ name ≠ none ∧ name ∈ decl := by
  simp [nameIn, Option.isSome_iff_ne_none]

theorem toNat_foldl_mul (dims : List UInt64) (v : UInt64) :
    (dims.foldl (· * ·) v).toNat = v.toNat * (dims.map UInt64.toNat).prod % 2 ^ 64 := by
  induction dims generalizing v with
  | nil => simp [Nat.mod_eq_of_lt v.toNat_lt]
  | cons d dims ih =>
    rw [List.foldl_cons, ih, UInt64.toNat_mul, List.map_cons, List.prod_cons, Nat.mod_mul_mod, mul_assoc]

theorem toNat_expectedLen (it : OnnxVInit) : (expectedLen it).toNat = exactSize it % 2 ^ 64 := by
  rw [expectedLen, UInt64.toNat_mul, toNat_foldl_mul, Nat.mod_mul_mod, exactSize]
  simp

theorem checkInits_iff (i : ℕ) (its : List OnnxVInit) : checkInits i its = .ok () ↔
    ∀ it ∈ its, it.name ≠ none ∧ Supported it ∧ it.rawLen.toNat = exactSize it % 2 ^ 64 := by
  induction its generalizing i with
  | nil => simp [checkInits]
  | cons it its ih =>
    rw [List.forall_mem_cons, checkInits]
    cases hname : it.name with
    | none => simp
    | some name =>
      have hsupported : Supported it ↔
          ¬ (it.dataType ≠ 1 ∧ it.dataType ≠ 10 ∧ it.dataType ≠ 11) := by
        rw [Supported]
        tauto
      have hlen : it.rawLen.toNat = exactSize it % 2 ^ 64 ↔ ¬ it.rawLen ≠ expectedLen it := by
        rw [← toNat_expectedLen, UInt64.toNat_inj, not_not]
      rw [hsupported, hlen]
      dsimp only
      split_ifs with htype hraw
      · simp [htype]
      · simp [hraw]
      · rw [ih]
        simp [htype, hraw]

theorem checkInputs_iff (opType : Str) (xs : List Str) :
    checkInputs opType decl xs = .ok () ↔ ∀ x ∈ xs, some x ∈ decl := by
  induction xs with
  | nil => simp [checkInputs]
  | cons x xs ih =>
    have hname : nameIn (some x) decl = true ↔ some x ∈ decl := by
      simp [nameIn_iff]
    rw [List.forall_mem_cons, checkInputs, ← hname]
    split_ifs with h
    · simp [h, ih]
    · simp [h]

theorem checkOutputs_iff (opType : Str) (xs : List Str) : checkOutputs opType decl xs = .ok decl' ↔
    (xs.Nodup ∧ ∀ x ∈ xs, some x ∉ decl) ∧ decl' = decl ++ xs.map some := by
  induction xs generalizing decl with
  | nil => simp [checkOutputs, eq_comm]
  | cons x xs ih =>
    have hname : nameIn (some x) decl = true ↔ some x ∈ decl := by
      simp [nameIn_iff]
    rw [checkOutputs]
    split_ifs with h
    · have hmem := hname.mp h
      simp [hmem]
    · have hmem : some x ∉ decl := fun hmem => h (hname.mpr hmem)
      rw [ih, List.nodup_cons, List.map_cons, List.append_assoc, List.singleton_append]
      simp only [List.mem_append, List.mem_singleton, not_or, Option.some.injEq]
      constructor
      · rintro ⟨⟨hnodup, hfresh⟩, hdecl⟩
        refine ⟨⟨⟨fun hx => (hfresh x hx).2 rfl, hnodup⟩, ?_⟩, hdecl⟩
        exact List.forall_mem_cons.mpr ⟨hmem, fun y hy => (hfresh y hy).1⟩
      · rintro ⟨⟨⟨hx, hnodup⟩, hfresh⟩, hdecl⟩
        refine ⟨⟨hnodup, fun y hy => ⟨hfresh y (List.mem_cons_of_mem x hy), ?_⟩⟩, hdecl⟩
        rintro rfl
        exact hx hy

theorem declared_cons (nd : OnnxVNode) (nds : List OnnxVNode) :
    declared decl (nd :: nds) = declared (decl ++ nd.outputs.map some) nds := by
  simp [declared]

theorem connectedFrom_nil : ConnectedFrom decl [] :=
  ⟨fun front nd back h => absurd h.symm (by simp), fun front nd back h => absurd h.symm (by simp)⟩

/-- The first node, and the others behind its outputs. -/
theorem connectedFrom_cons {nd : OnnxVNode} {nds : List OnnxVNode} : ConnectedFrom decl (nd :: nds) ↔
    (∀ x ∈ nd.inputs, some x ∈ decl) ∧ (nd.outputs.Nodup ∧ ∀ x ∈ nd.outputs, some x ∉ decl) ∧
      ConnectedFrom (decl ++ nd.outputs.map some) nds := by
  have hnil : declared decl [] = decl := by
    simp [declared]
  constructor
  · intro h
    have hin := h.inputs [] nd nds rfl
    have hout := h.outputs [] nd nds rfl
    rw [hnil] at hin hout
    refine ⟨hin, hout, ⟨fun front nd' back heq => ?_, fun front nd' back heq => ?_⟩⟩
    · rw [← declared_cons]
      exact h.inputs (nd :: front) nd' back (by rw [heq, List.cons_append])
    · rw [← declared_cons]
      exact h.outputs (nd :: front) nd' back (by rw [heq, List.cons_append])
  · rintro ⟨hin, hout, h⟩
    refine ⟨fun front nd' back heq => ?_, fun front nd' back heq => ?_⟩
    · cases front with
      | nil =>
        obtain ⟨rfl, -⟩ := List.cons.inj heq
        rwa [hnil]
      | cons nd'' front =>
        obtain ⟨rfl, htail⟩ := List.cons.inj heq
        rw [declared_cons]
        exact h.inputs front nd' back htail
    · cases front with
      | nil =>
        obtain ⟨rfl, -⟩ := List.cons.inj heq
        rwa [hnil]
      | cons nd'' front =>
        obtain ⟨rfl, htail⟩ := List.cons.inj heq
        rw [declared_cons]
        exact h.outputs front nd' back htail

theorem checkNodes_iff (i : ℕ) (nds : List OnnxVNode) : checkNodes i decl nds = .ok decl' ↔
    (∀ nd ∈ nds, HasOpType nd) ∧ ConnectedFrom decl nds ∧ decl' = declared decl nds := by
  induction nds generalizing i decl with
  | nil => simp [checkNodes, connectedFrom_nil, declared, eq_comm]
  | cons nd nds ih =>
    rw [List.forall_mem_cons, connectedFrom_cons, checkNodes, declared_cons]
    cases hop : nd.opType with
    | none => simp [HasOpType, hop]
    | some opType =>
      dsimp only
      split_ifs with hempty
      · simp [HasOpType, hop, hempty]
      · have hhas : HasOpType nd := by
          simp [HasOpType, hop, hempty]
        rw [seq_eq_ok_iff, checkInputs_iff]
        simp only [bind_eq_ok_iff, checkOutputs_iff, ih]
        constructor
        · rintro ⟨hin, d, ⟨hout, rfl⟩, hops, hconn, hdecl⟩
          exact ⟨⟨hhas, hops⟩, ⟨hin, hout, hconn⟩, hdecl⟩
        · rintro ⟨⟨-, hops⟩, ⟨hin, hout, hconn⟩, hdecl⟩
          exact ⟨hin, _, ⟨hout, rfl⟩, hops, hconn, hdecl⟩

theorem checkGraphOutputs_iff (os : List (Option Str)) :
    checkGraphOutputs decl os = .ok () ↔ ∀ o ∈ os, o ≠ none ∧ o ∈ decl := by
  induction os with
  | nil => simp [checkGraphOutputs]
  | cons o os ih =>
    rw [List.forall_mem_cons, checkGraphOutputs, ← nameIn_iff]
    split_ifs with h
    · simp [h, ih]
    · simp [h]

theorem checkModel_iff (m : OnnxModel) :
    checkModel m = .ok () ↔ Named m ∧ WrapSized m ∧ Present m ∧ Connected m := by
  unfold checkModel
  split_ifs with hir hopset hgname
  · exact iff_of_false (by simp) fun h => h.2.2.1.irVersion hir
  · exact iff_of_false (by simp) fun h => h.2.2.1.opsetVersion hopset
  · exact iff_of_false (by simp) fun h => h.2.2.1.gname hgname
  · rw [seq_eq_ok_iff, checkInits_iff]
    simp only [bind_eq_ok_iff, checkNodes_iff, checkGraphOutputs_iff]
    constructor
    · rintro ⟨hinits, d, ⟨hops, hconn, rfl⟩, hout⟩
      refine ⟨fun it hit => (hinits it hit).1, fun it hit => (hinits it hit).2.2,
        ⟨hir, hopset, hgname, fun it hit => (hinits it hit).2.1, hops⟩, hconn, hout⟩
    · rintro ⟨hnamed, hsized, hpresent, hconn⟩
      exact ⟨fun it hit => ⟨hnamed it hit, hpresent.dataTypes it hit, hsized it hit⟩, _,
        ⟨hpresent.opTypes, hconn.nodes, rfl⟩, hconn.graphOutputs⟩

/-! ## The validator -/

/-- The model that the validator checks. -/
def parsed (fuel : ℕ) (file : List UInt8) : Option OnnxModel :=
  if file = [] ∨ file.length > 1024 * 1024 * 256 then none else parseModel fuel file

theorem validate_eq_ok_iff {fuel : ℕ} {file : List UInt8} : validate fuel file = some (.ok ()) ↔
    ∃ m, parsed fuel file = some m ∧ checkModel m = .ok () := by
  unfold validate parsed
  split_ifs with h
  · simp
  · rw [Option.map_eq_some_iff]

/-- An accepted file is sized and connected, and a file with a model that is, and has everything that is
to be present, is accepted. -/
def Correct (file : List UInt8) : Prop :=
  (∀ fuel, validate fuel file = some (.ok ()) →
    ∃ m, parsed fuel file = some m ∧ Sized m ∧ Connected m) ∧
  (∀ fuel m, parsed fuel file = some m → Sized m → Connected m → Present m →
    validate fuel file = some (.ok ()))

theorem Sized.wrapSized {m : OnnxModel} (h : Sized m) : WrapSized m := by
  intro it hit
  rw [← h it hit, Nat.mod_eq_of_lt it.rawLen.toNat_lt]

/-- The validator is right about a file exactly if, once everything else is right, no size is right only
modulo 2^64 and no initializer lacks a name. -/
theorem validate_correct_iff (file : List UInt8) : Correct file ↔
    ∀ fuel m, parsed fuel file = some m → Present m → Connected m →
      (Named m → WrapSized m → Sized m) ∧ (Sized m → Named m) := by
  constructor
  · rintro ⟨hsound, hcomplete⟩ fuel m hm hpresent hconn
    constructor
    · intro hnamed hwrap
      have hok := validate_eq_ok_iff.mpr ⟨m, hm, (checkModel_iff m).mpr ⟨hnamed, hwrap, hpresent, hconn⟩⟩
      obtain ⟨m', hm', hsized, -⟩ := hsound fuel hok
      obtain rfl := Option.some.inj (hm.symm.trans hm')
      exact hsized
    · intro hsized
      obtain ⟨m', hm', hok⟩ := validate_eq_ok_iff.mp (hcomplete fuel m hm hsized hconn hpresent)
      obtain rfl := Option.some.inj (hm.symm.trans hm')
      exact ((checkModel_iff m).mp hok).1
  · intro h
    constructor
    · intro fuel hok
      obtain ⟨m, hm, hok⟩ := validate_eq_ok_iff.mp hok
      obtain ⟨hnamed, hwrap, hpresent, hconn⟩ := (checkModel_iff m).mp hok
      exact ⟨m, hm, (h fuel m hm hpresent hconn).1 hnamed hwrap, hconn⟩
    · intro fuel m hm hsized hconn hpresent
      refine validate_eq_ok_iff.mpr ⟨m, hm, (checkModel_iff m).mpr ⟨?_, hsized.wrapSized, hpresent, hconn⟩⟩
      exact (h fuel m hm hpresent hconn).2 hsized

/-- A model with one initializer `w` of 2^32 times 2^32 elements and no raw data. -/
def hugeTensor : List UInt8 :=
  [0x08, 0x08, 0x42, 0x02, 0x10, 0x0D, 0x3A, 0x18, 0x12, 0x01, 0x67, 0x2A, 0x13,
    0x08, 0x80, 0x80, 0x80, 0x80, 0x10, 0x08, 0x80, 0x80, 0x80, 0x80, 0x10,
    0x10, 0x01, 0x42, 0x01, 0x77, 0x4A, 0x00]

/-- It is accepted. -/
theorem not_correct_hugeTensor : ¬ Correct hugeTensor := by
  intro h
  have hparsed : parsed 8 hugeTensor = some
      { gname := some [0x67], irVersion := 8, opsetVersion := 13
        inits := [⟨some [0x77], [4294967296, 4294967296], 1, 0⟩] } := by
    decide +kernel
  have hok : validate 8 hugeTensor = some (.ok ()) :=
    validate_eq_ok_iff.mpr ⟨_, hparsed, rfl⟩
  obtain ⟨m, hm, hsized, -⟩ := h.1 8 hok
  obtain rfl := Option.some.inj (hparsed.symm.trans hm)
  have := hsized _ List.mem_cons_self
  simp [exactSize, elemSize] at this

end SneppxAlg.Onnx
