import SneppxAlg.Fs.Safetensors

/-!
# `onnx_format.c`: `SneppX_onnx_validate`

The reader of the protobuf wire format and the checks of the validator. Offsets are `size_t`s and wrap.
A read outside of the file, a shift by 64 bits or more and a loop that goes on for more than `fuel`
turns give `none`: a length field can move the offset back. A name is the list of its bytes before
the first NUL, as `strcmp` sees it. Allocations and file operations succeed.
-/

namespace SneppxAlg.Onnx

open Safetensors (ascii decimal)

abbrev Str := List UInt8

/-! ## The wire format -/

/-- The loop of `pb_varint`, of which at most `n` turns shift by less than 64 bits. -/
def pbVarintLoop (b : List UInt8) : ℕ → UInt64 → UInt64 → UInt64 → Option (UInt64 × UInt64)
  | 0, _, _, _ => none
  | n + 1, shift, v, pos => do
    let c ← b[pos.toNat]?
    let v := v ||| (c &&& 0x7F).toUInt64 <<< shift
    let pos := pos + 1
    if c &&& 0x80 = 0 then some (v, pos) else pbVarintLoop b n (shift + 7) v pos

/-- `pb_varint`: the value, and the offset behind it. -/
def pbVarint (b : List UInt8) (pos : UInt64) : Option (UInt64 × UInt64) := pbVarintLoop b 10 0 0 pos

/-- `PBTag`. -/
structure PBTag where
  field : UInt32
  wire : UInt64
  len : UInt64
  val : UInt64

/-- `pb_read_tag`. -/
def pbReadTag (b : List UInt8) (pos : UInt64) : Option (PBTag × UInt64) := do
  let (raw, pos) ← pbVarint b pos
  let field := (raw >>> 3).toUInt32
  let wire := raw &&& 7
  if wire = 0 then do
    let (val, pos) ← pbVarint b pos
    some (⟨field, wire, 0, val⟩, pos)
  else if wire = 1 then some (⟨field, wire, 8, 0⟩, pos)
  else if wire = 2 then do
    let (len, pos) ← pbVarint b pos
    some (⟨field, wire, len, 0⟩, pos)
  else if wire = 5 then some (⟨field, wire, 4, 0⟩, pos)
  else some (⟨field, wire, 0, 0⟩, pos)

/-- The offset behind the payload of a field that is not looked at. -/
def PBTag.skip (t : PBTag) (pos : UInt64) : UInt64 :=
  if t.wire = 2 then pos + t.len
  else if t.wire = 1 then pos + 8
  else if t.wire = 5 then pos + 4
  else pos

/-- A loop over the fields up to `stop`: what a field does to the state, and the offset behind it. -/
def fieldsLoop {σ : Type} (b : List UInt8) (stop : UInt64)
    (step : PBTag → UInt64 → σ → Option (UInt64 × σ)) : ℕ → UInt64 → σ → Option σ
  | 0, _, _ => none
  | fuel + 1, pos, s =>
    if pos < stop then do
      let (t, pos) ← pbReadTag b pos
      let (pos, s) ← step t pos s
      fieldsLoop b stop step fuel pos s
    else some s

/-- The first field up to `stop` that passes a test, and the offset of its payload. -/
def findField (b : List UInt8) (stop : UInt64) (test : PBTag → Bool) :
    ℕ → UInt64 → Option (Option (PBTag × UInt64))
  | 0, _ => none
  | fuel + 1, pos =>
    if pos < stop then do
      let (t, pos) ← pbReadTag b pos
      if test t then some (some (t, pos)) else findField b stop test fuel (t.skip pos)
    else some none

/-- `onnxv_dup_str`. -/
def dupStr (b : List UInt8) (pos len : UInt64) : Option Str :=
  if pos.toNat + len.toNat ≤ b.length then
    some (((b.drop pos.toNat).take len.toNat).takeWhile (· ≠ 0))
  else none

/-- A conversion to `int`. -/
def toInt (v : UInt64) : Int32 := v.toUInt32.toInt32

/-! ## The parsed model -/

/-- `OnnxVInit`. -/
structure OnnxVInit where
  name : Option Str := none
  dims : List UInt64 := []
  dataType : Int32 := 0
  rawLen : UInt64 := 0
  deriving DecidableEq

/-- `OnnxVNode`. -/
structure OnnxVNode where
  opType : Option Str := none
  inputs : List Str := []
  outputs : List Str := []
  deriving DecidableEq

/-- `OnnxModel`. -/
structure OnnxModel where
  gname : Option Str := none
  irVersion : Int32 := 0
  opsetVersion : Int32 := 0
  inits : List OnnxVInit := []
  nodes : List OnnxVNode := []
  inNames : List (Option Str) := []
  outNames : List (Option Str) := []
  deriving DecidableEq

/-- The loop over packed dimensions; `dv` has room for `n` more. -/
def packedDims (b : List UInt8) (e : UInt64) : ℕ → UInt64 → List UInt64 → Option (List UInt64)
  | 0, _, dv => some dv
  | n + 1, s, dv =>
    if s < e then do
      let (v, s) ← pbVarint b s
      packedDims b e n s (dv ++ [v])
    else some dv

def tensorField (b : List UInt8) (t : PBTag) (pos : UInt64) (o : OnnxVInit) :
    Option (UInt64 × OnnxVInit) :=
  if t.field = 1 then
    if t.wire = 2 then do
      let dv ← packedDims b (pos + t.len) (64 - o.dims.length) pos o.dims
      some (pos + t.len, { o with dims := dv })
    else if t.wire = 0 ∧ o.dims.length < 64 then some (pos, { o with dims := o.dims ++ [t.val] })
    else some (pos + t.len, o)
  else if t.field = 2 ∧ t.wire = 0 then some (pos, { o with dataType := toInt t.val })
  else if t.field = 8 ∧ t.wire = 2 then do
    let name ← dupStr b pos t.len
    some (pos + t.len, { o with name := some name })
  else if t.field = 9 ∧ t.wire = 2 then some (pos + t.len, { o with rawLen := t.len })
  else some (t.skip pos, o)

/-- `onnxv_parse_tensor`. -/
def parseTensor (fuel : ℕ) (b : List UInt8) (start stop : UInt64) : Option OnnxVInit :=
  fieldsLoop b stop (tensorField b) fuel start {}

def nodeField (b : List UInt8) (t : PBTag) (pos : UInt64) (o : OnnxVNode) :
    Option (UInt64 × OnnxVNode) :=
  if t.wire = 2 ∧ t.field = 1 then do
    let s ← dupStr b pos t.len
    some (pos + t.len, { o with inputs := o.inputs ++ [s] })
  else if t.wire = 2 ∧ t.field = 2 then do
    let s ← dupStr b pos t.len
    some (pos + t.len, { o with outputs := o.outputs ++ [s] })
  else if t.wire = 2 ∧ t.field = 4 then do
    let s ← dupStr b pos t.len
    some (pos + t.len, { o with opType := some s })
  else some (t.skip pos, o)

/-- `onnxv_parse_node`. -/
def parseNode (fuel : ℕ) (b : List UInt8) (start stop : UInt64) : Option OnnxVNode :=
  fieldsLoop b stop (nodeField b) fuel start {}

/-- `onnxv_vi_name`. -/
def viName (fuel : ℕ) (b : List UInt8) (start stop : UInt64) : Option (Option Str) := do
  match ← findField b stop (fun t => t.wire = 2 ∧ t.field = 1) fuel start with
  | none => some none
  | some (t, pos) => (dupStr b pos t.len).map some

/-- `onnxv_field_varint`. -/
def fieldVarint (fuel : ℕ) (b : List UInt8) (start stop : UInt64) (field : UInt32) :
    Option (Option UInt64) := do
  let found ← findField b stop (fun t => t.field = field ∧ t.wire = 0) fuel start
  some (found.map fun p => p.1.val)

def graphField (fuel : ℕ) (b : List UInt8) (t : PBTag) (pos : UInt64) (m : OnnxModel) :
    Option (UInt64 × OnnxModel) :=
  if t.wire = 2 ∧ t.field = 1 then do
    let nd ← parseNode fuel b pos (pos + t.len)
    some (pos + t.len, { m with nodes := m.nodes ++ [nd] })
  else if t.wire = 2 ∧ t.field = 5 then do
    let it ← parseTensor fuel b pos (pos + t.len)
    some (pos + t.len, { m with inits := m.inits ++ [it] })
  else if t.wire = 2 ∧ t.field = 11 then do
    let nm ← viName fuel b pos (pos + t.len)
    some (pos + t.len, { m with inNames := m.inNames ++ [nm] })
  else if t.wire = 2 ∧ t.field = 12 then do
    let nm ← viName fuel b pos (pos + t.len)
    some (pos + t.len, { m with outNames := m.outNames ++ [nm] })
  else if t.wire = 2 ∧ t.field = 2 then do
    let s ← dupStr b pos t.len
    some (pos + t.len, { m with gname := some s })
  else some (t.skip pos, m)

/-- `onnxv_parse_graph`. -/
def parseGraph (fuel : ℕ) (b : List UInt8) (start stop : UInt64) (m : OnnxModel) : Option OnnxModel :=
  fieldsLoop b stop (graphField fuel b) fuel start m

def modelField (fuel : ℕ) (b : List UInt8) (t : PBTag) (pos : UInt64) (m : OnnxModel) :
    Option (UInt64 × OnnxModel) :=
  if t.wire = 0 ∧ t.field = 1 then some (pos, { m with irVersion := toInt t.val })
  else if t.wire = 2 ∧ t.field = 7 then do
    let m ← parseGraph fuel b pos (pos + t.len) m
    some (pos + t.len, m)
  else if t.wire = 2 ∧ t.field = 8 then do
    let v ← fieldVarint fuel b pos (pos + t.len) 2
    some (pos + t.len, match v with
      | some v => { m with opsetVersion := toInt v }
      | none => m)
  else some (t.skip pos, m)

/-- `onnxv_parse_model`, with or without the eight bytes of the internal form in front. -/
def parseModel (fuel : ℕ) (b : List UInt8) : Option OnnxModel :=
  let start : UInt64 := if 8 ≤ b.length ∧ b.take 4 = ascii "ONNX" then 8 else 0
  fieldsLoop b (UInt64.ofNat b.length) (modelField fuel b) fuel start {}

/-! ## The checks -/

/-- Why a file is rejected. -/
inductive Rejection
  | fileSize (sz : ℕ)
  | noIrVersion
  | noOpset
  | noGraphName
  | initNoName (i : ℕ)
  | initDataType (name : Str) (dataType : Int32)
  | initRawLen (name : Str) (rawLen expected : UInt64)
  | nodeNoOpType (i : ℕ)
  | inputUndeclared (opType input : Str)
  | outputConflict (opType output : Str)
  | graphOutputUndeclared (output : Option Str)
  deriving DecidableEq

/-- `%d`. -/
def printInt (n : Int32) : List UInt8 :=
  if n.toInt < 0 then ascii "-" ++ decimal n.toInt.natAbs else decimal n.toInt.natAbs

/-- What is printed to `error_msg`; `(null)` is what the C library prints for a null pointer. -/
def Rejection.message : Rejection → List UInt8
  | .fileSize sz => ascii "invalid file size " ++ decimal sz
  | .noIrVersion => ascii "missing ir_version"
  | .noOpset => ascii "missing opset_import"
  | .noGraphName => ascii "missing graph name"
  | .initNoName i => ascii "initializer " ++ decimal i ++ ascii " has no name"
  | .initDataType name dataType =>
    ascii "initializer '" ++ name ++ ascii "' unsupported data_type " ++ printInt dataType
  | .initRawLen name rawLen expected =>
    ascii "initializer '" ++ name ++ ascii "' raw_data " ++ decimal rawLen.toNat ++
      ascii " != expected " ++ decimal expected.toNat
  | .nodeNoOpType i => ascii "node " ++ decimal i ++ ascii " has no op_type"
  | .inputUndeclared opType input =>
    ascii "node '" ++ opType ++ ascii "' input '" ++ input ++ ascii "' is not declared"
  | .outputConflict opType output =>
    ascii "node '" ++ opType ++ ascii "' output '" ++ output ++
      ascii "' conflicts with an existing tensor"
  | .graphOutputUndeclared output =>
    ascii "graph output '" ++ output.getD (ascii "(null)") ++ ascii "' is not produced by any node"

/-- `onnxv_name_in`. -/
def nameIn (name : Option Str) (decl : List (Option Str)) : Bool := name.isSome && decl.contains name

def elemSize (dataType : Int32) : UInt64 := if dataType = 11 then 8 else if dataType = 10 then 2 else 4

/-- `prod * esz`. -/
def expectedLen (it : OnnxVInit) : UInt64 := it.dims.foldl (· * ·) 1 * elemSize it.dataType

/-- The loop over the initializers. -/
def checkInits : ℕ → List OnnxVInit → Except Rejection Unit
  | _, [] => .ok ()
  | i, it :: its =>
    match it.name with
    | none => .error (.initNoName i)
    | some name =>
      if it.dataType ≠ 1 ∧ it.dataType ≠ 10 ∧ it.dataType ≠ 11 then
        .error (.initDataType name it.dataType)
      else if it.rawLen ≠ expectedLen it then .error (.initRawLen name it.rawLen (expectedLen it))
      else checkInits (i + 1) its

/-- The loop over the inputs of a node. -/
def checkInputs (opType : Str) (decl : List (Option Str)) : List Str → Except Rejection Unit
  | [] => .ok ()
  | x :: xs =>
    if nameIn (some x) decl then checkInputs opType decl xs else .error (.inputUndeclared opType x)

/-- The loop over the outputs of a node, which are declared one after the other. -/
def checkOutputs (opType : Str) : List (Option Str) → List Str → Except Rejection (List (Option Str))
  | decl, [] => .ok decl
  | decl, x :: xs =>
    if nameIn (some x) decl then .error (.outputConflict opType x)
    else checkOutputs opType (decl ++ [some x]) xs

/-- The loop over the nodes: the names that are declared in the end. -/
def checkNodes : ℕ → List (Option Str) → List OnnxVNode → Except Rejection (List (Option Str))
  | _, decl, [] => .ok decl
  | i, decl, nd :: nds =>
    match nd.opType with
    | none => .error (.nodeNoOpType i)
    | some opType =>
      if opType = [] then .error (.nodeNoOpType i)
      else do
        checkInputs opType decl nd.inputs
        let decl ← checkOutputs opType decl nd.outputs
        checkNodes (i + 1) decl nds

def checkGraphOutputs (decl : List (Option Str)) : List (Option Str) → Except Rejection Unit
  | [] => .ok ()
  | o :: os => if nameIn o decl then checkGraphOutputs decl os else .error (.graphOutputUndeclared o)

/-- The part of `SneppX_onnx_validate` behind the parser. -/
def checkModel (m : OnnxModel) : Except Rejection Unit :=
  if m.irVersion = 0 then .error .noIrVersion
  else if m.opsetVersion = 0 then .error .noOpset
  else if m.gname = none then .error .noGraphName
  else do
    checkInits 0 m.inits
    let decl ← checkNodes 0 (m.inNames ++ m.inits.map OnnxVInit.name) m.nodes
    checkGraphOutputs decl m.outNames

/-- `SneppX_onnx_validate` for a file that can be opened: it returns 0 for `ok`. -/
def validate (fuel : ℕ) (file : List UInt8) : Option (Except Rejection Unit) :=
  if file = [] ∨ file.length > 1024 * 1024 * 256 then some (.error (.fileSize file.length))
  else (parseModel fuel file).map checkModel

end SneppxAlg.Onnx
