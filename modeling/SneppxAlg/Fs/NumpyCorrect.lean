import SneppxAlg.Fs.Numpy
import SneppxAlg.Fs.SafetensorsCorrect

/-!
# `.npy` files come back, `.npz` archives do not

An array of at most eight positive extents and less than 2^32 bytes has a header text of at most 118
bytes, so that its length is one byte that `npy_load` does not take for a negative `char`. The header
is parsed to what was printed, up to `LONG_MAX`, and the bytes behind it are the elements.

The names in an archive end in `.npy`, and `npz_load` does not strip the extension. So only the
archive without entries comes back.

Main result: `numpy_roundTrip_iff`.
-/

namespace SneppxAlg.Numpy

open Lib.Bytes Lib.CString Lib.PrintBuffer
open Safetensors (ascii Failure decimal peek strtol isdigit isdigit_of_mem_decimal isdigit_ne
  decimal_eq_cons strtol_decimal ok_bind peek_cons)

/-! ## The header text -/

def headText (dtype : DType) : List UInt8 :=
  ascii "\x7b'descr': '" ++ descr dtype ++ ascii "', 'fortran_order': False, 'shape': ("

/-- What is printed behind the last extent. -/
def closeText (shape : List ℕ) : List UInt8 :=
  (if shape.length = 1 then ascii ",)" else ascii ")") ++ ascii "\x7d\n"

def headerText (dtype : DType) (shape : List ℕ) : List UInt8 :=
  headText dtype ++ ((shapePieces shape).flatten ++ closeText shape)

theorem flatten_headerPieces (dtype : DType) (shape : List ℕ) :
    (headerPieces dtype shape).flatten = headerText dtype shape := by
  simp [headerPieces, headerText, headText, closeText]

theorem header_of_short {dtype : DType} {shape : List ℕ} (h : (headerText dtype shape).length < 256) :
    header dtype shape = .ok (headerText dtype shape) := by
  have hstart : Holds (fun _ => 0) ⟨0, []⟩ [] := ⟨rfl, fun i hi => absurd hi (Nat.not_lt_zero i)⟩
  have hsize : (256 : UInt64).toNat = 256 := rfl
  have hflat := flatten_headerPieces dtype shape
  have hholds := @Holds.foldl 256 _ _ [] hstart (headerPieces dtype shape) (by
    rw [hflat, hsize]
    dsimp only
    omega)
  have hinside : Inside 256 ((headerPieces dtype shape).foldl (Cursor.put 256) ⟨0, []⟩).writes :=
    Inside.foldl (fun w hw => absurd hw List.not_mem_nil) (by
      rw [hflat, hsize]
      dsimp only
      omega)
  rw [List.nil_append, hflat] at hholds
  have hpos := hholds.pos
  unfold header
  rw [if_pos ⟨hinside, by omega⟩]
  congr 1
  apply List.ext_getElem
  · simp [hpos]
  · intro i h1 h2
    rw [List.getElem_map, List.getElem_range]
    exact hholds.read i h2

/-! ## Its length -/

theorem ten_pow_length_decimal {d : ℕ} (hd : 0 < d) : 10 ^ (decimal d).length ≤ 10 * d := by
  set k := (decimal d).length with hk
  rcases Nat.lt_or_ge k 2 with hlt | hge
  · calc 10 ^ k ≤ 10 ^ 1 := Nat.pow_le_pow_right (by norm_num) (by omega)
      _ ≤ 10 * d := by omega
  · have hlong : ¬ (Nat.toDigits 10 d).length ≤ k - 1 := by
      rw [hk, decimal, List.length_map]
      rw [hk, decimal, List.length_map] at hge
      omega
    rw [Nat.length_toDigits_le_iff (by norm_num) (by omega), not_lt] at hlong
    calc 10 ^ k = 10 * 10 ^ (k - 1) := by rw [← pow_succ', Nat.sub_add_cancel (by omega)]
      _ ≤ 10 * d := Nat.mul_le_mul_left 10 hlong

/-- Many digits make a large product. -/
theorem ten_pow_sum_length {ds : List ℕ} (h : ∀ d ∈ ds, 0 < d) :
    10 ^ (ds.map fun d => (decimal d).length).sum ≤ 10 ^ ds.length * ds.prod := by
  induction ds with
  | nil => simp
  | cons d ds ih =>
    obtain ⟨hd, hds⟩ := List.forall_mem_cons.mp h
    have h1 := ten_pow_length_decimal hd
    have h2 := ih hds
    rw [List.map_cons, List.sum_cons, pow_add, List.length_cons, List.prod_cons, pow_succ]
    calc 10 ^ (decimal d).length * 10 ^ (ds.map fun d => (decimal d).length).sum
        ≤ (10 * d) * (10 ^ ds.length * ds.prod) := Nat.mul_le_mul h1 h2
      _ = 10 ^ ds.length * 10 * (d * ds.prod) := by ring

theorem length_commaPieces (ds : List ℕ) : ((ds.map fun d => ascii ", " ++ decimal d).flatten).length =
    (ds.map fun d => (decimal d).length).sum + 2 * ds.length := by
  induction ds with
  | nil => rfl
  | cons d ds ih =>
    have hcomma : (ascii ", ").length = 2 := rfl
    simp only [List.map_cons, List.flatten_cons, List.length_append, ih, hcomma, List.sum_cons,
      List.length_cons]
    ring

theorem length_shapePieces (ds : List ℕ) : (shapePieces ds).flatten.length ≤
    (ds.map fun d => (decimal d).length).sum + 2 * ds.length := by
  cases ds with
  | nil => simp [shapePieces]
  | cons d ds =>
    simp only [shapePieces, List.flatten_cons, List.length_append, length_commaPieces, List.map_cons,
      List.sum_cons, List.length_cons]
    omega

theorem length_headText (dtype : DType) : (headText dtype).length = 51 := by
  cases dtype <;> rfl

theorem length_closeText (shape : List ℕ) : (closeText shape).length ≤ 4 := by
  unfold closeText
  split <;> decide

theorem length_headerText {dtype : DType} {shape : List ℕ} (hpos : ∀ d ∈ shape, 0 < d)
    (hlen : shape.length ≤ 8) (hprod : shape.prod < 2 ^ 32) :
    (headerText dtype shape).length ≤ 118 := by
  have hsum : (shape.map fun d => (decimal d).length).sum < 18 := by
    have hle := ten_pow_sum_length hpos
    have h8 : 10 ^ shape.length ≤ 10 ^ 8 := Nat.pow_le_pow_right (by norm_num) hlen
    refine (Nat.pow_lt_pow_iff_right (a := 10) (by norm_num)).mp (hle.trans_lt ?_)
    calc 10 ^ shape.length * shape.prod ≤ 10 ^ 8 * 2 ^ 32 := Nat.mul_le_mul h8 hprod.le
      _ < 10 ^ 18 := by norm_num
  have h1 := length_shapePieces shape
  have h2 := length_headText dtype
  have h3 := length_closeText shape
  rw [headerText, List.length_append, List.length_append]
  omega

/-! ## The header is parsed -/

theorem findKey_descr (dtype : DType) (p : List UInt8) {n : ℤ} (hn : 9 < n) :
    findKey (ascii "'descr'") (headText dtype ++ p) n 8 = .ok (some ((headText dtype).tail ++ p)) := by
  have hfind : strstr (ascii "'descr'") (headText dtype ++ p)
      = .ok (some ((headText dtype).tail ++ p)) := by
    cases dtype <;> rfl
  have hlen := length_headText dtype
  rw [findKey, hfind, ok_bind]
  congr 1
  rw [Option.filter_eq_some_iff]
  refine ⟨rfl, ?_⟩
  rw [decide_eq_true_eq, List.length_append, List.length_append, List.length_tail]
  omega

theorem readDescr_headText {dtype : DType} (h : ∀ code h, dtype ≠ .other code h) (p : List UInt8) :
    ∃ name, readDescr ((headText dtype).tail ++ p) = .ok name ∧ name ≠ [] ∧
      dtypeFromDescr name = dtype := by
  refine ⟨descr dtype, ?_, ?_, ?_⟩
  · cases dtype <;> rfl
  · cases dtype <;> simp [descr, ascii]
  · cases dtype with
    | other code hcode => exact absurd rfl (h code hcode)
    | _ => decide

theorem findKey_shape (dtype : DType) (p : List UInt8) {n : ℤ} (hn : 48 < n) :
    findKey (ascii "'shape'") (headText dtype ++ p) n 7
      = .ok (some (ascii "'shape': (" ++ p)) := by
  have hfind : strstr (ascii "'shape'") (headText dtype ++ p)
      = .ok (some (ascii "'shape': (" ++ p)) := by
    cases dtype <;> rfl
  have hlen := length_headText dtype
  have hkey : (ascii "'shape': (").length = 10 := rfl
  rw [findKey, hfind, ok_bind]
  congr 1
  rw [Option.filter_eq_some_iff]
  refine ⟨rfl, ?_⟩
  rw [decide_eq_true_eq, List.length_append, List.length_append, hlen, hkey]
  omega

theorem skip_cons {f : UInt8 → Bool} {c : UInt8} (hc : f c = false) (p : List UInt8) :
    skip f (c :: p) = .ok (c :: p) := by
  rw [skip, if_neg (by simp [hc])]

/-- Neither a blank nor a comma nor what ends the loop. -/
theorem isdigit_plain {c : UInt8} (h : isdigit c = true) :
    (c == 0x20 || c == 0x0A || c == 0x09) = false ∧ (c == 0x20 || c == 0x2C) = false ∧
      ¬ (c = 0x29 ∨ c = 0) := by
  have hne : c ≠ 0x20 ∧ c ≠ 0x0A ∧ c ≠ 0x09 ∧ c ≠ 0x2C ∧ c ≠ 0x29 ∧ c ≠ 0 := by grind [isdigit]
  simp [hne]

/-- What the loop has in front of it after an extent: what is behind the comma and the blanks. -/
def Follows (p q : List UInt8) : Prop :=
  (∃ c p', p = c :: p' ∧ isdigit c = false) ∧ skip (fun c => c == 0x20 || c == 0x2C) p = .ok q

theorem shapeLoop_decimal (longMax fuel : ℕ) {out : List ℕ} {d : ℕ} {p q : List UInt8}
    (hd : d < 2 ^ 64) (hout : out.length < 8) (h : Follows p q) :
    shapeLoop longMax (fuel + 1) out (decimal d ++ p) =
      shapeLoop longMax fuel (out ++ [min d longMax]) q := by
  obtain ⟨⟨c, p', rfl, hc⟩, hskip⟩ := h
  obtain ⟨b, s, hbs⟩ := decimal_eq_cons d
  obtain ⟨hblank, -, hclose⟩ := isdigit_plain
    (isdigit_of_mem_decimal (hbs ▸ List.mem_cons_self : b ∈ decimal d))
  have hfirst : skip (fun c => c == 0x20 || c == 0x0A || c == 0x09) (decimal d ++ c :: p')
      = .ok (decimal d ++ c :: p') := by
    rw [hbs, List.cons_append]
    exact skip_cons hblank _
  have hpeek : peek (decimal d ++ c :: p') = .ok b := by
    rw [hbs]
    rfl
  have hval : (((min d longMax : ℕ) : ℤ) % 2 ^ 64).toNat = min d longMax := by
    omega
  rw [shapeLoop, hfirst, ok_bind, hpeek, ok_bind, if_neg hclose, strtol_decimal longMax d p' hc, ok_bind]
  dsimp only
  rw [if_pos hout, hskip, ok_bind, hval]

theorem shapeLoop_close (longMax fuel : ℕ) (out : List ℕ) (p : List UInt8) :
    shapeLoop longMax (fuel + 1) out (0x29 :: p) = .ok out := rfl

theorem follows_comma (d : ℕ) (p : List UInt8) :
    Follows (ascii ", " ++ (decimal d ++ p)) (decimal d ++ p) := by
  obtain ⟨b, s, hbs⟩ := decimal_eq_cons d
  have hplain := (isdigit_plain
    (isdigit_of_mem_decimal (hbs ▸ List.mem_cons_self : b ∈ decimal d))).2.1
  refine ⟨⟨0x2C, 0x20 :: (decimal d ++ p), rfl, rfl⟩, ?_⟩
  have hskip : skip (fun c => c == 0x20 || c == 0x2C) (decimal d ++ p) = .ok (decimal d ++ p) := by
    rw [hbs, List.cons_append]
    exact skip_cons hplain _
  exact hskip

theorem follows_closeText (shape : List ℕ) (p : List UInt8) :
    Follows (closeText shape ++ p) (0x29 :: (ascii "\x7d\n" ++ p)) := by
  unfold closeText
  split
  · exact ⟨⟨0x2C, 0x29 :: (ascii "\x7d\n" ++ p), rfl, rfl⟩, rfl⟩
  · exact ⟨⟨0x29, ascii "\x7d\n" ++ p, rfl, rfl⟩, rfl⟩

/-- All extents, from the first on. -/
theorem shapeLoop_decimals (longMax : ℕ) {fuel : ℕ} {out : List ℕ} {d : ℕ} {ds : List ℕ}
    {p r : List UInt8} (hlt : ∀ e ∈ d :: ds, e < 2 ^ 64) (hout : out.length + ds.length < 8)
    (hp : Follows p (0x29 :: r)) (hfuel : ds.length + 1 < fuel) :
    shapeLoop longMax fuel out (decimal d ++ ((ds.map fun d => ascii ", " ++ decimal d).flatten ++ p)) =
      .ok (out ++ (d :: ds).map fun d => min d longMax) := by
  induction ds generalizing out d fuel with
  | nil =>
    obtain ⟨fuel, rfl⟩ : ∃ k, fuel = k + 2 := ⟨fuel - 2, by simp at hfuel; omega⟩
    rw [List.map_nil, List.flatten_nil, List.nil_append,
      shapeLoop_decimal longMax _ (hlt d List.mem_cons_self) (by simpa using hout) hp, shapeLoop_close]
    rfl
  | cons e ds ih =>
    obtain ⟨hd, hds⟩ := List.forall_mem_cons.mp hlt
    obtain ⟨fuel, rfl⟩ : ∃ k, fuel = k + 1 := ⟨fuel - 1, by omega⟩
    rw [List.length_cons] at hout hfuel
    have hfollows := follows_comma e ((ds.map fun d => ascii ", " ++ decimal d).flatten ++ p)
    have hout' : (out ++ [min d longMax]).length + ds.length < 8 := by
      rw [List.length_append, List.length_singleton]
      omega
    rw [List.map_cons, List.flatten_cons, List.append_assoc, List.append_assoc,
      shapeLoop_decimal longMax _ hd (by omega) hfollows, ih hds hout' (by omega)]
    simp

/-- The shape comes back, up to `LONG_MAX`. -/
theorem readShape_shape (longMax : ℕ) {shape : List ℕ} (hlen : shape.length ≤ 8)
    (hlt : ∀ d ∈ shape, d < 2 ^ 64) (p : List UInt8) :
    readShape longMax (ascii "'shape': (" ++ ((shapePieces shape).flatten ++ (closeText shape ++ p))) =
      .ok (shape.map fun d => min d longMax) := by
  have hclose := follows_closeText shape p
  have hchr (r : List UInt8) : strchr 0x28 ((ascii "'shape': (" ++ r).drop 7) = .ok (some (0x28 :: r)) := rfl
  rw [readShape, hchr, ok_bind]
  dsimp only
  rw [List.tail_cons]
  cases shape with
  | nil => rfl
  | cons d ds =>
    rw [shapePieces, List.flatten_cons, List.append_assoc]
    refine shapeLoop_decimals longMax hlt (by simpa using hlen) hclose ?_
    obtain ⟨b, s, hbs⟩ := decimal_eq_cons d
    simp only [List.length_cons, List.length_append, length_commaPieces, hbs]
    omega

/-! ## Sizes -/

/-- An extent of 0 counts as 1. -/
def factor (d : ℕ) : ℕ := if d = 0 then 1 else d

theorem totalBytes_eq_mod (dtype : DType) (shape : List ℕ) : totalBytes dtype shape =
    (if esize dtype = 0 then 1 else esize dtype) * (shape.map factor).prod % 2 ^ 64 := by
  have hlt : totalBytes dtype shape < 2 ^ 64 := by
    rcases List.eq_nil_or_concat shape with rfl | ⟨ds, d, rfl⟩
    · have hsize : esize dtype ≤ 8 := by
        cases dtype <;> simp [esize]
      rw [totalBytes, List.foldl_nil]
      split <;> omega
    · rw [totalBytes, List.concat_eq_append, List.foldl_append, List.foldl_cons, List.foldl_nil]
      exact Nat.mod_lt _ (by norm_num)
  have hfold := Safetensors.foldl_mul_mod (shape.map factor) (if esize dtype = 0 then 1 else esize dtype)
  rw [List.foldl_map] at hfold
  rw [← hfold]
  exact (Nat.mod_eq_of_lt hlt).symm

theorem prod_factor_min_le {shape : List ℕ} (h : ∀ d ∈ shape, 0 < d) (longMax : ℕ) :
    ((shape.map fun d => min d longMax).map factor).prod ≤ shape.prod := by
  induction shape with
  | nil => rfl
  | cons d ds ih =>
    obtain ⟨hd, hds⟩ := List.forall_mem_cons.mp h
    have hfactor : factor (min d longMax) ≤ d := by
      unfold factor
      split <;> omega
    exact Nat.mul_le_mul hfactor (ih hds)

/-! ## One array -/

/-- An array with a supported data type, at most eight positive extents and less than 2^32 bytes. -/
structure Stored where
  dtype : DType
  supported : ∀ code h, dtype ≠ .other code h
  shape : List ℕ
  shape_pos : ∀ d ∈ shape, 0 < d
  ndim_le : shape.length ≤ 8
  data : List UInt8
  length_data : data.length = esize dtype * shape.prod
  length_lt : data.length < 2 ^ 32

namespace Stored

variable (a : Stored)

theorem esize_pos : 0 < esize a.dtype := by
  have := a.supported
  cases h : a.dtype with
  | other code hcode => exact absurd h (this code hcode)
  | _ => decide

theorem prod_lt : a.shape.prod < 2 ^ 32 := by
  have h1 := a.esize_pos
  have h2 := a.length_data
  have h3 := a.length_lt
  calc a.shape.prod = 1 * a.shape.prod := (one_mul _).symm
    _ ≤ esize a.dtype * a.shape.prod := Nat.mul_le_mul_right _ h1
    _ < 2 ^ 32 := by omega

theorem lt_of_mem {d : ℕ} (hd : d ∈ a.shape) : d < 2 ^ 32 := by
  have hpos : 0 < a.shape.prod := List.prod_pos a.shape_pos
  exact (Nat.le_of_dvd hpos (List.dvd_prod hd)).trans_lt a.prod_lt

theorem totalBytes_eq : totalBytes a.dtype a.shape = a.data.length := by
  have hfactor : a.shape.map factor = a.shape := by
    refine (List.map_congr_left fun d hd => ?_).trans (List.map_id _)
    exact if_neg (a.shape_pos d hd).ne'
  have hlt := a.length_lt
  rw [totalBytes_eq_mod, hfactor, if_neg a.esize_pos.ne', ← a.length_data, Nat.mod_eq_of_lt (by omega)]

/-- Extents that are cut do not make the array larger. -/
theorem totalBytes_min_le (longMax : ℕ) :
    totalBytes a.dtype (a.shape.map fun d => min d longMax) ≤ a.data.length := by
  rw [totalBytes_eq_mod, if_neg a.esize_pos.ne', a.length_data]
  exact (Nat.mod_le _ _).trans (Nat.mul_le_mul_left _ (prod_factor_min_le a.shape_pos longMax))

/-- The header text, and the blanks behind it. -/
def text : List UInt8 := headerText a.dtype a.shape

def pad : ℕ := (64 - (10 + a.text.length) % 64) % 64

def file : List UInt8 :=
  magic ++ leBytes 2 (a.text.length + a.pad) ++ a.text ++ List.replicate a.pad 0x20 ++ a.data

theorem length_text_le : a.text.length ≤ 118 := length_headerText a.shape_pos a.ndim_le a.prod_lt

theorem npySave_eq : npySave a.data a.shape a.dtype = .ok a.file := by
  have hshort : (headerText a.dtype a.shape).length < 256 := by
    have := a.length_text_le
    rw [text] at this
    omega
  rw [npySave, npyBytes, header_of_short hshort, ok_bind, totalBytes_eq, if_neg (lt_irrefl _),
    List.take_length]
  rfl

theorem length_add_pad_lt : a.text.length + a.pad < 128 := by
  have := a.length_text_le
  rw [pad]
  omega

/-- The length fits into a `char` that is not negative. -/
theorem headerLen_file : ∃ hlen, headerLen (fun b => b.toInt8.toInt32) a.file = .ok hlen ∧
    hlen.toInt = (a.text.length + a.pad : ℕ) := by
  have h6 : byteAt a.file 6 = .ok 1 := rfl
  have h8 : byteAt a.file 8 = .ok (UInt8.ofNat (a.text.length + a.pad)) := rfl
  have h9 : byteAt a.file 9 = .ok (UInt8.ofNat ((a.text.length + a.pad) / 256)) := rfl
  have hsmall : ∀ n < 128, ((UInt8.ofNat n).toInt8.toInt32 |||
      (UInt8.ofNat (n / 256)).toInt8.toInt32 <<< 8).toInt = n := by
    decide +kernel
  refine ⟨_, ?_, hsmall _ a.length_add_pad_lt⟩
  rw [headerLen, h8, ok_bind, h9, ok_bind, h6, ok_bind, if_pos rfl]

theorem drop_file : a.file.drop 10 = a.text ++ (List.replicate a.pad 0x20 ++ a.data) := by
  simp [file, magic, leBytes, List.append_assoc]

theorem drop_data : a.file.drop (10 + (a.text.length + a.pad)) = a.data := by
  rw [← List.drop_drop, drop_file, ← List.append_assoc, List.drop_left' (by simp)]

theorem length_file : a.file.length = 10 + (a.text.length + a.pad) + a.data.length := by
  simp [file, magic]
  omega

theorem parseNpyHeader_file (longMax : ℕ) : parseNpyHeader longMax (a.file.drop 10)
    (a.text.length + a.pad : ℕ) = .ok (a.dtype, a.shape.map fun d => min d longMax) := by
  have hlong : 51 ≤ a.text.length := by
    rw [text, headerText, List.length_append, length_headText]
    omega
  have hn : (51 : ℤ) ≤ (a.text.length + a.pad : ℕ) := by
    omega
  generalize ((a.text.length + a.pad : ℕ) : ℤ) = n at hn ⊢
  obtain ⟨name, hname, hne, hdtype⟩ := readDescr_headText a.supported
    ((shapePieces a.shape).flatten ++ closeText a.shape ++ (List.replicate a.pad 0x20 ++ a.data))
  have hshape := readShape_shape longMax a.ndim_le (fun d hd => (a.lt_of_mem hd).trans (by norm_num))
    (List.replicate a.pad 0x20 ++ a.data)
  rw [← List.append_assoc (shapePieces a.shape).flatten] at hshape
  rw [drop_file, text, headerText, List.append_assoc, parseNpyHeader,
    findKey_descr a.dtype _ (by omega), ok_bind]
  dsimp only
  rw [hname, ok_bind, findKey_shape a.dtype _ (by omega), ok_bind]
  dsimp only
  rw [hshape, ok_bind, if_neg hne, hdtype]

/-- What `npy_load` makes of the file. -/
theorem npyLoad_file (longMax : ℕ) : npyLoad longMax a.file =
    .ok ⟨a.dtype, a.shape.map fun d => min d longMax,
      totalBytes a.dtype (a.shape.map fun d => min d longMax),
      a.data.take (totalBytes a.dtype (a.shape.map fun d => min d longMax))⟩ := by
  have hle := a.totalBytes_min_le longMax
  have hlen := a.length_file
  have hsmall := a.length_add_pad_lt
  have hdata := a.length_lt
  obtain ⟨hlen', hheader, hvalue⟩ := a.headerLen_file
  have hoff : headerOff a.file = .ok 10 := rfl
  have hmagic : a.file.take 6 = magic.take 6 := rfl
  have hadd : addSize 10 (a.text.length + a.pad : ℕ) = 10 + (a.text.length + a.pad) := by
    rw [addSize]
    omega
  rw [npyLoad, if_neg (by omega), if_neg (not_not.mpr hmagic), hheader, ok_bind, hoff, ok_bind, hvalue,
    hadd, if_neg (by omega), readArray, hvalue, parseNpyHeader_file, ok_bind]
  dsimp only
  rw [hadd, if_neg (by omega), if_neg (by omega), drop_data]

/-- The array that the caller saved. -/
def array : NPYArray := ⟨a.dtype, a.shape, a.data.length, a.data⟩

end Stored

/-- `npy_load` returns what `npy_save` was given. -/
def NpyRoundTrip (longMax : ℕ) (a : Stored) : Prop :=
  ∃ file, npySave a.data a.shape a.dtype = .ok file ∧ npyLoad longMax file = .ok a.array

theorem npyRoundTrip_iff (longMax : ℕ) (a : Stored) :
    NpyRoundTrip longMax a ↔ ∀ d ∈ a.shape, d ≤ longMax := by
  constructor
  · rintro ⟨file, hsave, hload⟩ d hd
    obtain rfl := Except.ok.inj (a.npySave_eq.symm.trans hsave)
    have hshape := congrArg NPYArray.shape (Except.ok.inj ((a.npyLoad_file longMax).symm.trans hload))
    have hmin := List.map_inj_left.mp (hshape.trans (List.map_id _).symm) d hd
    exact (min_eq_left_iff).mp hmin
  · intro h
    have hshape : (a.shape.map fun d => min d longMax) = a.shape :=
      (List.map_congr_left fun d hd => min_eq_left (h d hd)).trans (List.map_id _)
    refine ⟨a.file, a.npySave_eq, ?_⟩
    rw [a.npyLoad_file, hshape, a.totalBytes_eq, List.take_length]
    rfl

/-! ## Archives -/

/-- `npz_load` returns what `npz_save` was given. -/
def NpzRoundTrip (longMax : ℕ) (l : List (CStr × Stored)) : Prop :=
  ∃ file, npzSave (l.map fun p => ⟨p.1, p.2.data, p.2.shape, p.2.dtype⟩) = .ok file ∧
    npzLoad longMax file = .ok (l.map fun p => (p.1.bytes, some p.2.array))

def localHeader (comp fnameLen : ℕ) : List UInt8 :=
  leBytes 4 0x04034b50 ++ leBytes 2 20 ++ leBytes 2 0 ++ leBytes 2 0 ++ leBytes 2 0 ++
    leBytes 2 0 ++ leBytes 4 0 ++ leBytes 4 comp ++ leBytes 4 comp ++ leBytes 2 fnameLen ++ leBytes 2 0

theorem localEntry_eq {s : Source} {entry : List UInt8} (h : localEntry s = .ok entry) :
    ∃ b name, fname s.key ((s.key.bytes.length + 4) % 2 ^ 32) = .ok name ∧
      entry = localHeader (totalBytes s.dtype s.shape) ((s.key.bytes.length + 4) % 2 ^ 32) ++
        (name ++ b) := by
  obtain ⟨b, -, h⟩ := Safetensors.exists_of_bind h
  obtain ⟨name, hname, h⟩ := Safetensors.exists_of_bind h
  refine ⟨b, name, hname, ?_⟩
  rw [← Except.ok.inj h, localHeader, List.append_assoc]

/-- An archive starts with its first entry. -/
theorem npzSave_cons {s : Source} {ss : List Source} {file : List UInt8}
    (h : npzSave (s :: ss) = .ok file) : ∃ name rest,
      fname s.key ((s.key.bytes.length + 4) % 2 ^ 32) = .ok name ∧
        file = localHeader (totalBytes s.dtype s.shape) ((s.key.bytes.length + 4) % 2 ^ 32) ++
          (name ++ rest) := by
  obtain ⟨⟨locals, dir, cdStart⟩, hlocals, h⟩ := Safetensors.exists_of_bind h
  obtain ⟨central, -, h⟩ := Safetensors.exists_of_bind h
  obtain ⟨entry, hentry, hlocals⟩ := Safetensors.exists_of_bind hlocals
  obtain ⟨b, -, hlocals⟩ := Safetensors.exists_of_bind hlocals
  obtain ⟨⟨more, dir', cdEnd⟩, -, hlocals⟩ := Safetensors.exists_of_bind hlocals
  obtain ⟨b', name, hname, rfl⟩ := localEntry_eq hentry
  have hmore := congrArg Prod.fst (Except.ok.inj hlocals)
  dsimp only at hmore
  have hentries : locals <+: file := by
    rw [← Except.ok.inj h, List.append_assoc]
    exact List.prefix_append _ _
  have hfirst : localHeader (totalBytes s.dtype s.shape) ((s.key.bytes.length + 4) % 2 ^ 32) ++ name
      <+: locals := by
    rw [← hmore, ← List.append_assoc _ name, List.append_assoc]
    exact List.prefix_append _ _
  obtain ⟨rest, hrest⟩ := hfirst.trans hentries
  exact ⟨name, rest, hname, by rw [← hrest, List.append_assoc]⟩

/-- The first name is the saved one with an extension, or only the beginning of it. -/
theorem name_ne_key {key : CStr} {name : List UInt8} (rest : List UInt8)
    (h : fname key ((key.bytes.length + 4) % 2 ^ 32) = .ok name) :
    ((name ++ rest).take ((key.bytes.length + 4) % 2 ^ 16)).takeWhile (· ≠ 0) ≠ key.bytes := by
  intro heq
  have hle := (List.takeWhile_prefix (p := fun b : UInt8 => decide (b ≠ 0))
    (l := (name ++ rest).take ((key.bytes.length + 4) % 2 ^ 16))).length_le
  rw [heq, List.length_take] at hle
  rcases Nat.lt_or_ge (key.bytes.length + 4) (2 ^ 16) with hlt | hge
  · have hname : name = key.bytes ++ ascii ".npy" := by
      unfold fname at h
      rw [Nat.mod_eq_of_lt (show key.bytes.length + 4 < 2 ^ 32 by omega)] at h
      split at h
      · cases h
      · rw [← Except.ok.inj h]
        exact List.take_of_length_le (by simp [ascii])
    have hlen : name.length = key.bytes.length + 4 := by
      simp [hname, ascii]
    have hzero : ∀ b ∈ name, decide (b ≠ 0) = true := by
      intro b hb
      rw [hname, List.mem_append] at hb
      rw [decide_eq_true_eq]
      rintro rfl
      rcases hb with hb | hb
      · exact key.zero_notMem hb
      · exact absurd hb (by decide)
    rw [Nat.mod_eq_of_lt hlt, ← hlen, List.take_left, List.takeWhile_eq_self_iff.mpr hzero, hname] at heq
    have := congrArg List.length heq
    simp [ascii] at this
  · omega

theorem not_npzRoundTrip_cons (longMax : ℕ) (p : CStr × Stored) (l : List (CStr × Stored)) :
    ¬ NpzRoundTrip longMax (p :: l) := by
  rintro ⟨file, hsave, hload⟩
  obtain ⟨name, rest, hname, hfile⟩ := npzSave_cons hsave
  dsimp only at hname hfile
  have hlen : 0 + 30 ≤ file.length := by
    rw [hfile, List.length_append]
    simp [localHeader]
  have hsig : field file 0 4 = 0x04034b50 := by
    have htake : (file.drop 0).take 4 = leBytes 4 0x04034b50 := by
      rw [hfile]
      rfl
    rw [field, htake, leVal_leBytes]
    norm_num
  have hmethod : field file (0 + 8) 2 = 0 := by
    have htake : (file.drop (0 + 8)).take 2 = leBytes 2 0 := by
      rw [hfile]
      rfl
    rw [field, htake, leVal_leBytes]
    rfl
  have hfname : field file (0 + 26) 2 = (p.1.bytes.length + 4) % 2 ^ 16 := by
    have htake : (file.drop (0 + 26)).take 2 = leBytes 2 ((p.1.bytes.length + 4) % 2 ^ 32) := by
      rw [hfile]
      rfl
    rw [field, htake, leVal_leBytes]
    omega
  have hdrop : file.drop (0 + 30) = name ++ rest := by
    rw [hfile]
    rfl
  rw [npzLoad, npzLoop, if_pos ⟨hlen, hsig⟩, hmethod, hfname, hdrop] at hload
  dsimp only at hload
  split at hload
  · cases hload
  · rw [if_pos rfl] at hload
    obtain ⟨arr, -, hload⟩ := Safetensors.exists_of_bind hload
    obtain ⟨more, -, hload⟩ := Safetensors.exists_of_bind hload
    have hhead := (List.cons.inj (Except.ok.inj hload)).1
    exact name_ne_key rest hname (congrArg Prod.fst hhead)

theorem npzRoundTrip_nil (longMax : ℕ) : NpzRoundTrip longMax [] := ⟨_, rfl, rfl⟩

/-- An archive comes back exactly if it has no entries; an array comes back exactly if `strtol` does
not cut an extent, so always where `long` has 64 bits. -/
theorem numpy_roundTrip_iff (longMax : ℕ) (l : List (CStr × Stored)) (a : Stored) :
    (NpzRoundTrip longMax l ↔ l = []) ∧ (NpyRoundTrip longMax a ↔ ∀ d ∈ a.shape, d ≤ longMax) := by
  refine ⟨?_, npyRoundTrip_iff longMax a⟩
  cases l with
  | nil => exact iff_of_true (npzRoundTrip_nil longMax) rfl
  | cons p l => exact iff_of_false (not_npzRoundTrip_cons longMax p l) (List.cons_ne_nil p l)

/-- Two numbers of type `float32`, both zero. -/
def vector : Stored :=
  ⟨.float32, fun _ _ => by simp, [2], by decide, by decide, List.replicate 8 0, by decide, by decide⟩

/-- The array `x` does not come back: its name in the archive is `x.npy`, and so is its key. -/
theorem not_npzRoundTrip_vector : ¬ NpzRoundTrip (2 ^ 63 - 1) [(⟨ascii "x", by decide⟩, vector)] :=
  not_npzRoundTrip_cons _ _ _

end SneppxAlg.Numpy
