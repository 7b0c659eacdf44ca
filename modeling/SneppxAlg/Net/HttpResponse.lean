import SneppxAlg.Fs.SafetensorsCorrect
import SneppxAlg.Lib.PrintBuffer
import SneppxAlg.Net.HttpRequest

/-!
# The text of an HTTP response

`build_response` and the setters of `net/http/http_server.c`. The head is put into the buffer piece by
piece, with the length of the body in its last line. Only then is the body compared with the room that is
left, and it is dropped if it does not fit. The body may be as long as the whole buffer, so behind a long
body's head there is nothing.

A header is sent as it is, and a header with an empty line in it ends the head early. In all other responses
what follows the first empty line is the body, with the length that the head tells (`response_delivers_iff`).
-/

namespace SneppxAlg.Http

open Lib.PrintBuffer
open Safetensors (ascii decimal)

structure HttpResponse where
  statusCode : Int32
  headers : List Bytes
  body : Bytes
  headers_length_le : headers.length ≤ maxHeaders
  header_length_le : ∀ h ∈ headers, h.length ≤ 255
  body_length_le : body.length ≤ bufSize - 1

/-- `add_header`. -/
def addHeader (resp : HttpResponse) (name value : Bytes) : HttpResponse :=
  if hfull : maxHeaders ≤ resp.headers.length then resp
  else
    { resp with
      headers := resp.headers ++ [(name ++ ascii ": " ++ value).take 255]
      headers_length_le := by
        rw [List.length_append, List.length_singleton]
        omega
      header_length_le := by
        rw [List.forall_mem_append, List.forall_mem_singleton]
        exact ⟨resp.header_length_le, List.length_take_le _ _⟩ }

/-- `SNEPPX_http_response_set_body`. -/
def setBody (resp : HttpResponse) (data : Bytes) : HttpResponse :=
  { resp with body := data.take (bufSize - 1), body_length_le := List.length_take_le _ _ }

def statusText (sc : Int32) : String :=
  if sc = 404 then "Not Found"
  else if sc = 401 then "Unauthorized"
  else if sc = 403 then "Forbidden"
  else if sc = 500 then "Internal Server Error"
  else if sc = 429 then "Too Many Requests"
  else if sc = 400 then "Bad Request"
  else "OK"

/-- `%d`. -/
def decimalInt (v : Int32) : Bytes :=
  if v < 0 then 0x2D :: decimal v.toInt.natAbs else decimal v.toInt.natAbs

def hasContentType (headers : List Bytes) : Bool := headers.any (strStartsWith · (ascii "Content-Type"))

/-- The first line, without its end. -/
def statusLine (sc : Int32) : Bytes :=
  ascii "HTTP/1.1 " ++ decimalInt sc ++ ascii " " ++ ascii (statusText sc)

def contentLength (n : ℕ) : Bytes := ascii "Content-Length: " ++ decimal n

/-- What the calls of `snprintf` write. -/
def headPieces (resp : HttpResponse) : List Bytes :=
  [statusLine resp.statusCode ++ crlf] ++ resp.headers.map (· ++ crlf) ++
    (if hasContentType resp.headers then [] else [ascii "Content-Type: text/plain" ++ crlf]) ++
    [contentLength resp.body.length ++ crlf ++ crlf]

/-- `build_response`; the return code is the final offset. -/
def buildResponse (resp : HttpResponse) (outMax : UInt64) : Cursor :=
  let head := (headPieces resp).foldl (Cursor.put outMax) ⟨0, []⟩
  let all : Cursor :=
    if 0 < resp.body.length ∧ head.pos + resp.body.length < outMax.toNat then
      ⟨head.pos + resp.body.length, head.writes ++ placed head.pos resp.body⟩
    else head
  ⟨all.pos, all.writes ++ [(all.pos, 0)]⟩

/-- What `send` takes from the buffer. -/
def emitted (mem : ℕ → UInt8) (out : Cursor) : Bytes := (List.range out.pos).map (readBack mem out.writes)

/-! ## Messages -/

/-- The lines in front of the first empty line of a message, and what follows it. -/
def splitHead : Bytes → Option (Bytes × Bytes)
  | 13 :: 10 :: 13 :: 10 :: body => some ([], body)
  | b :: s => (splitHead s).map fun r => (b :: r.1, r.2)
  | [] => none

/-- The message holds the whole of the data behind its first empty line, and the last line of its head tells
the length. Nothing is written outside of the buffer. -/
def Delivers (resp : HttpResponse) (data : Bytes) : Prop :=
  let out := buildResponse (setBody resp data) 65536
  Inside 65536 out.writes ∧
    ∀ mem, ∃ lines, splitHead (emitted mem out) =
      some (lines ++ (crlf ++ contentLength data.length), data)

/-- A header with an empty line in it. -/
def Breaks (header : Bytes) : Prop := (splitHead (crlf ++ header ++ crlf)).isSome

theorem splitHead_cons {b : UInt8} {s : Bytes} (h : ∀ body, b :: s ≠ 13 :: 10 :: 13 :: 10 :: body) :
    splitHead (b :: s) = (splitHead s).map fun r => (b :: r.1, r.2) := by
  rw [splitHead]
  intro body hb hs
  exact h body (by rw [hb, hs])

theorem splitHead_eq_some {s head body : Bytes} (h : splitHead s = some (head, body)) :
    s = head ++ (crlf ++ (crlf ++ body)) := by
  induction s using splitHead.induct generalizing head with
  | case1 rest =>
    obtain ⟨rfl, rfl⟩ : [] = head ∧ rest = body := by simpa [splitHead] using h
    rfl
  | case2 b s hne ih =>
    rw [splitHead_cons fun body heq => hne body (List.cons.inj heq).1 (List.cons.inj heq).2] at h
    obtain ⟨⟨head', body'⟩, h', heq⟩ := Option.map_eq_some_iff.mp h
    obtain ⟨rfl, rfl⟩ := Prod.mk.inj heq
    rw [List.cons_append, ← ih h']
  | case3 => simp [splitHead] at h

/-- A part in which the head does not end, not even with the end of the line. -/
theorem splitHead_append {s : Bytes} (h : splitHead (s ++ crlf) = none) (rest : Bytes) :
    splitHead (s ++ (crlf ++ rest)) = (splitHead (crlf ++ rest)).map fun r => (s ++ r.1, r.2) := by
  induction s with
  | nil => simp
  | cons b s ih =>
    have hne : ∀ body, b :: (s ++ crlf) ≠ 13 :: 10 :: 13 :: 10 :: body := by
      intro body heq
      rw [List.cons_append, heq] at h
      simp [splitHead] at h
    -- An empty line that begins here ends in front of what follows.
    have hne' : ∀ body, b :: (s ++ (crlf ++ rest)) ≠ 13 :: 10 :: 13 :: 10 :: body := by
      intro body heq
      match s with
      | [] => simp [crlf] at heq
      | [x] => exact hne [] (by simp [crlf] at heq ⊢; exact ⟨heq.1, heq.2.1⟩)
      | [x, y] => simp [crlf] at heq
      | x :: y :: z :: s =>
        simp only [List.cons_append, List.cons.injEq] at heq
        obtain ⟨rfl, rfl, rfl, rfl, -⟩ := heq
        exact hne (s ++ crlf) rfl
    rw [List.cons_append, splitHead_cons hne, Option.map_eq_none_iff] at h
    rw [List.cons_append, splitHead_cons hne', ih h, Option.map_map]
    rfl

theorem splitHead_none {s : Bytes} (h : 13 ∉ s) : splitHead (s ++ crlf) = none := by
  induction s with
  | nil => simp [splitHead, crlf]
  | cons b s ih =>
    obtain ⟨hb, hs⟩ := not_or.mp (mt List.mem_cons.mpr h)
    have hne : ∀ body, b :: (s ++ crlf) ≠ 13 :: 10 :: 13 :: 10 :: body := by
      rintro body heq
      exact hb (List.cons.inj heq).1.symm
    rw [List.cons_append, splitHead_cons hne, ih hs, Option.map_none]

/-- A line without CR that is not empty. -/
theorem not_breaks {l : Bytes} (hl : l ≠ []) (h : 13 ∉ l) : ¬ Breaks l := by
  obtain ⟨b, l, rfl⟩ := List.exists_cons_of_ne_nil hl
  have hb : b ≠ 13 := fun heq => h (heq ▸ List.mem_cons_self)
  have hsplit : splitHead (crlf ++ (b :: l) ++ crlf) = none := by
    have hcons : crlf ++ (b :: l) ++ crlf = 13 :: 10 :: (b :: l ++ crlf) := rfl
    rw [hcons, splitHead_cons (by simp [hb]), splitHead_cons (by simp), splitHead_none h]
    rfl
  rw [Breaks, hsplit]
  exact Bool.false_ne_true

theorem splitHead_lines {first : Bytes} (hfirst : 13 ∉ first) {lines : List Bytes}
    (hlines : ∀ l ∈ lines, ¬ Breaks l) (body : Bytes) :
    splitHead (first ++ (lines.flatMap (crlf ++ ·) ++ (crlf ++ (crlf ++ body)))) =
      some (first ++ lines.flatMap (crlf ++ ·), body) := by
  have hrest : ∀ lines : List Bytes, (∀ l ∈ lines, ¬ Breaks l) → ∃ t,
      lines.flatMap (crlf ++ ·) ++ (crlf ++ (crlf ++ body)) = crlf ++ t ∧
      splitHead (crlf ++ t) = some (lines.flatMap (crlf ++ ·), body) := by
    intro lines hlines
    induction lines with
    | nil => exact ⟨crlf ++ body, rfl, rfl⟩
    | cons l lines ih =>
      obtain ⟨hl, hlines⟩ := List.forall_mem_cons.mp hlines
      obtain ⟨t, ht, hsplit⟩ := ih hlines
      have hnone : splitHead (crlf ++ l ++ crlf) = none := by simpa [Breaks] using hl
      refine ⟨l ++ (crlf ++ t), by rw [List.flatMap_cons, List.append_assoc, ht, List.append_assoc], ?_⟩
      rw [← List.append_assoc crlf, splitHead_append hnone, hsplit, Option.map_some, List.flatMap_cons]
  obtain ⟨t, ht, hsplit⟩ := hrest lines hlines
  rw [ht, splitHead_append (splitHead_none hfirst), hsplit, Option.map_some]

theorem splitHead_append_right {s head body : Bytes} (h : splitHead s = some (head, body)) (t : Bytes) :
    splitHead (s ++ t) = some (head, body ++ t) := by
  induction s using splitHead.induct generalizing head with
  | case1 rest =>
    obtain ⟨rfl, rfl⟩ : [] = head ∧ rest = body := by simpa [splitHead] using h
    rfl
  | case2 b s hne ih =>
    have hcons : ∀ body, b :: s ≠ 13 :: 10 :: 13 :: 10 :: body := fun body heq =>
      hne body (List.cons.inj heq).1 (List.cons.inj heq).2
    rw [splitHead_cons hcons] at h
    obtain ⟨⟨head', body'⟩, h', heq⟩ := Option.map_eq_some_iff.mp h
    obtain ⟨rfl, rfl⟩ := Prod.mk.inj heq
    have hlen := congrArg List.length (splitHead_eq_some h')
    simp only [List.length_append, crlf, List.length_cons, List.length_nil] at hlen
    have hcons' : ∀ body, b :: (s ++ t) ≠ 13 :: 10 :: 13 :: 10 :: body := by
      intro body heq
      rcases s with _ | ⟨x, _ | ⟨y, _ | ⟨z, s⟩⟩⟩
      · simp at hlen
        omega
      · simp at hlen
        omega
      · simp at hlen
        omega
      · simp only [List.cons_append, List.cons.injEq] at heq
        obtain ⟨rfl, rfl, rfl, rfl, -⟩ := heq
        exact hcons s rfl
    rw [List.cons_append, splitHead_cons hcons', ih h', Option.map_some]
  | case3 => simp [splitHead] at h

/-- In a longer text the head ends at the same place, or earlier. -/
theorem splitHead_append_left (x : Bytes) {s head body : Bytes} (h : splitHead s = some (head, body)) :
    ∃ head' body', splitHead (x ++ s) = some (head', body') ∧ body.length ≤ body'.length := by
  induction x with
  | nil => exact ⟨head, body, h, le_rfl⟩
  | cons b x ih =>
    by_cases hstart : ∃ rest, b :: (x ++ s) = 13 :: 10 :: 13 :: 10 :: rest
    · obtain ⟨rest, hrest⟩ := hstart
      refine ⟨[], rest, by rw [List.cons_append, hrest]; rfl, ?_⟩
      have hlen := congrArg List.length hrest
      have hlen' := congrArg List.length (splitHead_eq_some h)
      simp only [List.length_cons, List.length_append, crlf, List.length_nil] at hlen hlen'
      omega
    · obtain ⟨head', body', hsplit, hle⟩ := ih
      rw [List.cons_append, splitHead_cons (not_exists.mp hstart), hsplit]
      exact ⟨b :: head', body', rfl, hle⟩

/-! ## The head -/

variable (resp : HttpResponse)

def headText : Bytes := (headPieces resp).flatten

/-- The lines behind the first one. -/
def fieldLines : List Bytes :=
  resp.headers ++ (if hasContentType resp.headers then [] else [ascii "Content-Type: text/plain"]) ++
    [contentLength resp.body.length]

theorem headText_eq :
    headText resp = statusLine resp.statusCode ++ ((fieldLines resp).flatMap (crlf ++ ·) ++ (crlf ++ crlf)) := by
  have hlines : ∀ lines : List Bytes, ∀ t, crlf ++ ((lines.map (· ++ crlf)).flatten ++ t) =
      lines.flatMap (crlf ++ ·) ++ (crlf ++ t) := by
    intro lines t
    induction lines with
    | nil => rfl
    | cons l lines ih => simp [ih]
  have hpieces : headText resp = statusLine resp.statusCode ++
      (crlf ++ (((fieldLines resp).map (· ++ crlf)).flatten ++ crlf)) := by
    rw [headText, headPieces, fieldLines]
    split_ifs <;> simp
  rw [hpieces, hlines]

theorem length_decimalInt_le (v : Int32) : (decimalInt v).length ≤ 21 := by
  have hlow := v.le_toInt
  have hhigh := v.toInt_lt
  have hdigits : (decimal v.toInt.natAbs).length ≤ 20 := Safetensors.length_decimal_le (by omega)
  unfold decimalInt
  split_ifs
  · rw [List.length_cons]
    omega
  · omega

theorem length_statusLine_le (sc : Int32) : (statusLine sc).length ≤ 60 := by
  have hcode := length_decimalInt_le sc
  have htext : (ascii (statusText sc)).length ≤ 21 := by
    unfold statusText
    split_ifs <;> decide
  have h1 : (ascii "HTTP/1.1 ").length = 9 := by decide
  have h2 : (ascii " ").length = 1 := by decide
  rw [statusLine, List.length_append, List.length_append, List.length_append]
  omega

/-- Room for 64 headers. -/
theorem length_headText_le : (headText resp).length ≤ 20000 := by
  have hstatus := length_statusLine_le resp.statusCode
  have hheaders : (resp.headers.map (· ++ crlf)).flatten.length ≤ 64 * 257 := by
    have hsum := List.sum_le_card_nsmul ((resp.headers.map (· ++ crlf)).map List.length) 257 (by
      simp only [List.mem_map, forall_exists_index, and_imp, forall_apply_eq_imp_iff₂, List.length_append]
      exact fun h hmem => Nat.add_le_add_right (resp.header_length_le h hmem) 2)
    rw [List.length_map, List.length_map, smul_eq_mul] at hsum
    have hcount := Nat.mul_le_mul_right 257 resp.headers_length_le
    rw [List.length_flatten]
    exact hsum.trans hcount
  have htype : ((if hasContentType resp.headers then []
      else [ascii "Content-Type: text/plain" ++ crlf] : List Bytes)).flatten.length ≤ 26 := by
    split_ifs <;> decide
  have hlength : (contentLength resp.body.length).length ≤ 36 := by
    have hbody := resp.body_length_le
    have hdigits : (decimal resp.body.length).length ≤ 20 := by
      refine Safetensors.length_decimal_le (hbody.trans_lt ?_)
      norm_num [bufSize]
    have hname : (ascii "Content-Length: ").length = 16 := by decide
    rw [contentLength, List.length_append]
    omega
  have hcrlf : crlf.length = 2 := rfl
  rw [headText, headPieces, List.flatten_append, List.flatten_append, List.flatten_append,
    List.flatten_singleton, List.flatten_singleton]
  simp only [List.length_append]
  omega

/-! ## What is sent -/

def Fits : Prop := (headText resp).length + resp.body.length < bufSize

instance : Decidable (Fits resp) := inferInstanceAs (Decidable (_ < _))

def headCursor : Cursor := (headPieces resp).foldl (Cursor.put 65536) ⟨0, []⟩

theorem headCursor_pos : (headCursor resp).pos = (headText resp).length := by
  rw [headCursor, pos_foldl_put, Nat.zero_add, headText]

theorem holds_headCursor (mem : ℕ → UInt8) : Holds mem (headCursor resp) (headText resp) := by
  have hle := length_headText_le resp
  have hstart : Holds mem ⟨0, []⟩ [] := ⟨rfl, fun i hi => absurd hi (Nat.not_lt_zero i)⟩
  refine hstart.foldl ?_
  rw [Nat.zero_add]
  exact hle.trans_lt (by decide)

theorem inside_headCursor : Inside 65536 (headCursor resp).writes := by
  have hle := length_headText_le resp
  have hstart : Inside 65536 (⟨0, []⟩ : Cursor).writes := fun w hw => absurd hw List.not_mem_nil
  refine hstart.foldl ?_
  rw [Nat.zero_add]
  exact hle.trans (by decide)

theorem buildResponse_eq : buildResponse resp 65536 =
    if 0 < resp.body.length ∧ Fits resp then
      ⟨(headText resp).length + resp.body.length,
        (headCursor resp).writes ++ placed (headText resp).length resp.body ++
          [((headText resp).length + resp.body.length, 0)]⟩
    else ⟨(headText resp).length, (headCursor resp).writes ++ [((headText resp).length, 0)]⟩ := by
  have hsize : (65536 : UInt64).toNat = bufSize := rfl
  have hhead : (headPieces resp).foldl (Cursor.put 65536) ⟨0, []⟩ = headCursor resp := rfl
  rw [buildResponse, hhead, headCursor_pos, hsize]
  unfold Fits
  split_ifs
  · rfl
  · rw [headCursor_pos]

theorem inside_buildResponse : Inside 65536 (buildResponse resp 65536).writes := by
  have hsize : (65536 : UInt64).toNat = bufSize := rfl
  have hhead := inside_headCursor resp
  have hle := length_headText_le resp
  rw [buildResponse_eq]
  split_ifs with h
  · have hfits : (headText resp).length + resp.body.length < bufSize := h.2
    refine inside_append.mpr ⟨inside_append.mpr ⟨hhead, fun w hw => ?_⟩, ?_⟩
    · have := (mem_placed hw).2
      omega
    · simpa [Inside, hsize] using hfits
  · refine inside_append.mpr ⟨hhead, ?_⟩
    have hlt : (headText resp).length < 65536 := by omega
    simpa [Inside] using hlt

theorem emitted_buildResponse (mem : ℕ → UInt8) : emitted mem (buildResponse resp 65536) =
    headText resp ++ if 0 < resp.body.length ∧ Fits resp then resp.body else [] := by
  have hhead := holds_headCursor resp mem
  rw [buildResponse_eq]
  split_ifs with h
  · have hbody := hhead.placed resp.body []
    rw [List.append_nil, headCursor_pos] at hbody
    have hend := hbody.placed [] [0]
    simp only [List.nil_append, List.append_nil, List.length_nil, Nat.add_zero] at hend
    exact hend.written
  · have hend := hhead.placed [] [0]
    simp only [List.nil_append, List.append_nil, List.length_nil, Nat.add_zero, headCursor_pos] at hend
    rw [List.append_nil]
    exact hend.written

/-! ## The message -/

theorem not_mem_decimal (n : ℕ) : 13 ∉ decimal n := by
  intro hmem
  exact absurd (Safetensors.isdigit_of_mem_decimal hmem) (by decide)

theorem not_mem_statusLine (sc : Int32) : 13 ∉ statusLine sc := by
  have hversion : 13 ∉ ascii "HTTP/1.1 " := by decide
  have hblank : 13 ∉ ascii " " := by decide
  have hcode : 13 ∉ decimalInt sc := by
    unfold decimalInt
    split_ifs
    · simp [not_mem_decimal]
    · exact not_mem_decimal _
  have htext : 13 ∉ ascii (statusText sc) := by
    unfold statusText
    split_ifs <;> decide
  simp [statusLine, hversion, hblank, hcode, htext]

theorem contentLength_not_breaks (n : ℕ) : ¬ Breaks (contentLength n) := by
  have hname : 13 ∉ ascii "Content-Length: " := by decide
  have hne : ascii "Content-Length: " ≠ [] := by decide
  exact not_breaks (List.append_ne_nil_of_left_ne_nil hne _)
    (by simp [contentLength, hname, not_mem_decimal])

theorem fieldLines_not_breaks {resp : HttpResponse} (h : ∀ header ∈ resp.headers, ¬ Breaks header) :
    ∀ l ∈ fieldLines resp, ¬ Breaks l := by
  rw [fieldLines, List.forall_mem_append, List.forall_mem_append, List.forall_mem_singleton]
  refine ⟨⟨h, ?_⟩, contentLength_not_breaks _⟩
  split_ifs
  · exact List.forall_mem_nil _
  · rw [List.forall_mem_singleton]
    exact not_breaks (by decide) (by decide)

/-- An empty line in a header ends the head, and at least the last line is behind it. -/
theorem splitHead_of_breaks {resp : HttpResponse} {header : Bytes} (hmem : header ∈ resp.headers)
    (h : Breaks header) (t : Bytes) :
    ∃ head body, splitHead (headText resp ++ t) = some (head, body) ∧ t.length < body.length := by
  obtain ⟨pre, post, hheaders⟩ := List.append_of_mem hmem
  obtain ⟨⟨head, body⟩, hsplit⟩ := Option.isSome_iff_exists.mp h
  obtain ⟨rest, hfields⟩ : ∃ rest, fieldLines resp = pre ++ header :: (rest ++ [contentLength resp.body.length]) := by
    refine ⟨post ++ if hasContentType resp.headers then [] else [ascii "Content-Type: text/plain"], ?_⟩
    rw [fieldLines, hheaders]
    simp
  obtain ⟨y, hy⟩ : ∃ y, (rest ++ [contentLength resp.body.length]).flatMap (crlf ++ ·) = crlf ++ y := by
    cases rest with
    | nil => exact ⟨contentLength resp.body.length, by simp⟩
    | cons l rest => exact ⟨_, by rw [List.cons_append, List.flatMap_cons, List.append_assoc]⟩
  have htext : headText resp ++ t = statusLine resp.statusCode ++ pre.flatMap (crlf ++ ·) ++
      (crlf ++ header ++ crlf ++ (y ++ (crlf ++ crlf ++ t))) := by
    rw [headText_eq, hfields, List.flatMap_append, List.flatMap_cons, hy]
    simp
  obtain ⟨head', body', hsplit', hle⟩ := splitHead_append_left
    (statusLine resp.statusCode ++ pre.flatMap (crlf ++ ·))
    (splitHead_append_right hsplit (y ++ (crlf ++ crlf ++ t)))
  refine ⟨head', body', by rw [htext, hsplit'], ?_⟩
  simp only [List.length_append, crlf, List.length_cons, List.length_nil] at hle
  omega

theorem splitHead_headText {resp : HttpResponse} (h : ∀ header ∈ resp.headers, ¬ Breaks header) (t : Bytes) :
    ∃ lines, splitHead (headText resp ++ t) = some (lines ++ (crlf ++ contentLength resp.body.length), t) := by
  have hsplit := splitHead_lines (not_mem_statusLine resp.statusCode) (fieldLines_not_breaks h) t
  have htext : headText resp ++ t = statusLine resp.statusCode ++
      ((fieldLines resp).flatMap (crlf ++ ·) ++ (crlf ++ (crlf ++ t))) := by
    rw [headText_eq]
    simp
  rw [htext, hsplit, fieldLines, List.flatMap_append, List.flatMap_singleton, ← List.append_assoc]
  exact ⟨_, rfl⟩

/-- A body that is not sent is too long for its own head to be taken for it. -/
theorem fits_of_delivers {resp : HttpResponse} {data : Bytes} (h : Delivers resp data) :
    (headText (setBody resp data)).length + data.length < bufSize := by
  obtain ⟨lines, hsplit⟩ := h.2 fun _ => 0
  rw [emitted_buildResponse] at hsplit
  have hlen := congrArg List.length (splitHead_eq_some hsplit)
  have hle := length_headText_le (setBody resp data)
  have hbody : (setBody resp data).body.length = min (bufSize - 1) data.length := List.length_take
  have hsize : bufSize = 65536 := rfl
  split_ifs at hlen with hfits
  · have hlt : (headText (setBody resp data)).length + (setBody resp data).body.length < bufSize := hfits.2
    simp only [List.length_append, crlf, List.length_cons, List.length_nil] at hlen
    omega
  · simp only [List.length_append, crlf, List.length_cons, List.length_nil] at hlen
    omega

theorem sent_eq {resp : HttpResponse} {data : Bytes}
    (h : (headText (setBody resp data)).length + data.length < bufSize) :
    (setBody resp data).body = data ∧
      (if 0 < (setBody resp data).body.length ∧ Fits (setBody resp data) then (setBody resp data).body
        else []) = data := by
  have hbody : (setBody resp data).body = data := List.take_of_length_le (by omega)
  have hfits : Fits (setBody resp data) := by
    unfold Fits
    rwa [hbody]
  refine ⟨hbody, ?_⟩
  split_ifs with hsend
  · exact hbody
  · have hlen : ¬ 0 < data.length := fun hpos => hsend ⟨by rwa [hbody], hfits⟩
    exact (List.eq_nil_of_length_eq_zero (by omega)).symm

/-- For every response and every data for its body. -/
theorem response_delivers_iff (data : Bytes) : Delivers resp data ↔
    (headText (setBody resp data)).length + data.length < bufSize ∧ ∀ header ∈ resp.headers, ¬ Breaks header := by
  constructor
  · intro h
    have hfits := fits_of_delivers h
    refine ⟨hfits, fun header hmem hbreaks => ?_⟩
    obtain ⟨lines, hsplit⟩ := h.2 fun _ => 0
    rw [emitted_buildResponse, (sent_eq hfits).2] at hsplit
    obtain ⟨head, body, hsplit', hlt⟩ := @splitHead_of_breaks (setBody resp data) header hmem hbreaks data
    rw [hsplit] at hsplit'
    obtain rfl := (Prod.mk.inj (Option.some.inj hsplit')).2
    exact absurd hlt (lt_irrefl _)
  · rintro ⟨hfits, hheaders⟩
    refine ⟨inside_buildResponse _, fun mem => ?_⟩
    obtain ⟨lines, hsplit⟩ := @splitHead_headText (setBody resp data) hheaders data
    rw [(sent_eq hfits).1] at hsplit
    rw [emitted_buildResponse, (sent_eq hfits).2]
    exact ⟨lines, hsplit⟩

/-- A response without headers. -/
def plainResponse : HttpResponse :=
  { statusCode := 200, headers := [], body := [], headers_length_le := by simp, header_length_le := by simp
    body_length_le := by simp }

/-- The longest body is announced and not sent. -/
theorem not_delivers_longest : ¬ Delivers plainResponse (List.replicate 65535 0) := by
  intro h
  have hlen : (List.replicate 65535 (0 : UInt8)).length = 65535 := List.length_replicate
  have hfits := fits_of_delivers h
  have hhead : 0 < (headText (setBody plainResponse (List.replicate 65535 0))).length := by
    rw [headText_eq, List.length_append, List.length_append]
    simp only [List.length_append, crlf, List.length_cons, List.length_nil]
    omega
  rw [hlen, bufSize] at hfits
  omega

end SneppxAlg.Http
