import Mathlib.Data.List.Infix
import Mathlib.Data.List.TakeWhile

/-!
# Parsing an HTTP request

`parse_http_request` of `net/http/http_server.c`. The buffer is given as the list of its `raw_len`
bytes; behind them the caller has put a NUL, at which the string functions stop.

Three scans look for the parts of the request: the request line ends at the first CR or LF, the
headers start behind all CR and LF bytes that follow, and the body starts behind the first empty line.
They agree on a request with headers. In a request without headers the second scan runs over the empty
line into the body, whose lines are then taken for headers (`parse_correct_iff`).
-/

namespace SneppxAlg.Http

abbrev Bytes := List UInt8

/-- `BUF_SIZE`. -/
def bufSize : ℕ := 65536

/-- `MAX_HEADERS`. -/
def maxHeaders : ℕ := 64

/-- `str_starts_with`. -/
def strStartsWith : Bytes → Bytes → Bool
  | _, [] => true
  | [], _ :: _ => false
  | b :: s, c :: t => b == c && strStartsWith s t

def isCrLf (b : UInt8) : Bool := b == 13 || b == 10

/-- `isspace`, as `sscanf` uses it. -/
def isspace (b : UInt8) : Bool := b == 0x20 || (0x09 ≤ b && b ≤ 0x0D)

def crlf : Bytes := [13, 10]

/-- `strstr`: the text in front of the first occurrence, and the text from there on. -/
def strstr (needle : Bytes) : Bytes → Option (Bytes × Bytes)
  | [] => none
  | b :: s =>
    if needle.isPrefixOf (b :: s) then some ([], b :: s)
    else if b = 0 then none
    else (strstr needle s).map fun r => (b :: r.1, r.2)

/-- The conversion `%ns` of `sscanf`: one word of at most `n` bytes, and what is left. -/
def scanWord (n : ℕ) (s : Bytes) : Option (Bytes × Bytes) :=
  let text := s.dropWhile isspace
  let word := (text.takeWhile (fun b => !isspace b)).take n
  if word = [] then none else some (word, text.drop word.length)

structure HttpRequest where
  method : Bytes
  path : Bytes
  query : Bytes
  headers : List Bytes
  body : Bytes
deriving DecidableEq

/-- `split_query`. -/
def splitQuery (path : Bytes) : Bytes × Bytes :=
  if 63 ∈ path then
    ((path.takeWhile (· ≠ 63)).take 1023, ((path.dropWhile (· ≠ 63)).drop 1).take 1023)
  else (path.take 1023, [])

/-- `sscanf(line, "%15s %1023s", …)`: what is not read stays empty. -/
def scanRequestLine (line : Bytes) : Bytes × Bytes :=
  match scanWord 15 (line.takeWhile (· ≠ 0)) with
  | none => ([], [])
  | some (method, rest) =>
    match scanWord 1023 rest with
    | none => (method, [])
    | some (path, _) => (method, path)

/-- The loop over the headers; the first argument is the room left in the table. -/
def headerLoop : ℕ → Bytes → List Bytes
  | 0, _ => []
  | n + 1, h =>
    match strstr crlf h with
    | none => []
    | some ([], _) => []
    | some (line, tail) => line.take 255 :: headerLoop n (tail.drop 2)

/-- `parse_http_request`; `none` is the return code -1. -/
def parseHttpRequest (raw : Bytes) : Option HttpRequest :=
  let line := raw.takeWhile (fun b => !isCrLf b)
  if 8192 ≤ line.length then none
  else
    let words := scanRequestLine line
    let parts := splitQuery words.2
    some
      { method := words.1
        path := parts.1
        query := parts.2
        headers := headerLoop maxHeaders ((raw.drop line.length).dropWhile isCrLf)
        body :=
          match strstr (crlf ++ crlf) raw with
          | none => []
          | some (_, tail) => (tail.drop 4).take (bufSize - 1) }

/-! ## Request texts -/

/-- A line of a request holds neither CR nor LF nor NUL. -/
def IsLine (l : Bytes) : Prop := ∀ b ∈ l, b ≠ 13 ∧ b ≠ 10 ∧ b ≠ 0

/-- The text of a request: a request line, headers, an empty line and a body. -/
structure RequestText where
  requestLine : Bytes
  headers : List Bytes
  body : Bytes
  requestLine_isLine : IsLine requestLine
  headers_isLine : ∀ h ∈ headers, IsLine h
  headers_ne_nil : ∀ h ∈ headers, h ≠ []

/-- The headers and the empty line, with the body behind them. -/
def headerSection (headers : List Bytes) (body : Bytes) : Bytes :=
  headers.flatMap (· ++ crlf) ++ (crlf ++ body)

def RequestText.raw (t : RequestText) : Bytes :=
  t.requestLine ++ (crlf ++ headerSection t.headers t.body)

/-- The headers are the lines between the request line and the empty line, as far as they fit the
table (64 lines of 255 bytes), and the body is what follows the empty line. -/
def Correct (t : RequestText) : Prop :=
  ∀ req, parseHttpRequest t.raw = some req →
    req.headers = (t.headers.take maxHeaders).map (·.take 255) ∧ req.body = t.body

/-! ## The scans -/

theorem IsLine.cons {b : UInt8} {l : Bytes} (h : IsLine (b :: l)) :
    b ≠ 13 ∧ b ≠ 10 ∧ b ≠ 0 ∧ IsLine l := by
  obtain ⟨h13, h10, h0⟩ := h b List.mem_cons_self
  exact ⟨h13, h10, h0, fun c hc => h c (List.mem_cons_of_mem _ hc)⟩

/-- A scan passes over a line. -/
theorem strstr_line {needle : Bytes} (hneedle : needle.head? = some 13) {l : Bytes} (hl : IsLine l)
    (s : Bytes) : strstr needle (l ++ s) = (strstr needle s).map fun r => (l ++ r.1, r.2) := by
  induction l with
  | nil => simp
  | cons b l ih =>
    obtain ⟨h13, -, h0, hl⟩ := hl.cons
    obtain ⟨rest, rfl⟩ : ∃ rest, needle = 13 :: rest := by
      cases needle with
      | nil => simp at hneedle
      | cons c rest => exact ⟨rest, by simpa using hneedle⟩
    have hprefix : (13 :: rest : Bytes).isPrefixOf (b :: (l ++ s)) = false := by
      simp [List.isPrefixOf, Ne.symm h13]
    rw [List.cons_append, strstr, hprefix, if_neg Bool.false_ne_true, if_neg h0, ih hl,
      Option.map_map]
    rfl

/-- The end of a line. -/
theorem strstr_crlf (s : Bytes) : strstr crlf (crlf ++ s) = some ([], crlf ++ s) := by
  simp [strstr, crlf, List.isPrefixOf]

theorem strstr_crlf_line {l : Bytes} (hl : IsLine l) (s : Bytes) :
    strstr crlf (l ++ (crlf ++ s)) = some (l, crlf ++ s) := by
  rw [strstr_line rfl hl, strstr_crlf]
  simp

theorem strstr_empty (s : Bytes) :
    strstr (crlf ++ crlf) (crlf ++ (crlf ++ s)) = some ([], crlf ++ (crlf ++ s)) := by
  simp [strstr, crlf, List.isPrefixOf]

/-- The end of a line that another line follows. -/
theorem strstr_next {b : UInt8} (hb : b ≠ 13) (s : Bytes) :
    strstr (crlf ++ crlf) (crlf ++ b :: s) =
      (strstr (crlf ++ crlf) (b :: s)).map fun r => (crlf ++ r.1, r.2) := by
  have h1 : (crlf ++ crlf).isPrefixOf (crlf ++ b :: s) = false := by
    simp [crlf, List.isPrefixOf, Ne.symm hb]
  have h2 : (crlf ++ crlf).isPrefixOf (10 :: b :: s) = false := by
    simp [crlf, List.isPrefixOf]
  have hcons : crlf ++ b :: s = 13 :: 10 :: b :: s := rfl
  rw [hcons] at h1 ⊢
  rw [strstr, h1, if_neg Bool.false_ne_true, if_neg (by decide), strstr, h2,
    if_neg Bool.false_ne_true, if_neg (by decide), Option.map_map]
  rfl

/-- The text up to the empty line, and the body behind it. -/
theorem strstr_headerSection {l : Bytes} (hl : IsLine l) {headers : List Bytes}
    (hlines : ∀ h ∈ headers, IsLine h) (hne : ∀ h ∈ headers, h ≠ []) (body : Bytes) :
    ∃ front, strstr (crlf ++ crlf) (l ++ (crlf ++ headerSection headers body)) =
      some (front, crlf ++ (crlf ++ body)) := by
  induction headers generalizing l with
  | nil =>
    refine ⟨l, ?_⟩
    rw [strstr_line rfl hl, headerSection, List.flatMap_nil, List.nil_append, strstr_empty]
    simp
  | cons h headers ih =>
    obtain ⟨front, hfront⟩ := ih (hlines h List.mem_cons_self)
      (fun x hx => hlines x (List.mem_cons_of_mem _ hx)) (fun x hx => hne x (List.mem_cons_of_mem _ hx))
    have hsection : headerSection (h :: headers) body = h ++ (crlf ++ headerSection headers body) := by
      simp [headerSection]
    obtain ⟨b, h', rfl⟩ := List.exists_cons_of_ne_nil (hne h List.mem_cons_self)
    have hb := (hlines _ List.mem_cons_self).cons.1
    refine ⟨l ++ (crlf ++ front), ?_⟩
    rw [strstr_line rfl hl, hsection, List.cons_append, strstr_next hb, ← List.cons_append, hfront]
    simp

theorem headerLoop_headerSection {headers : List Bytes} (hlines : ∀ h ∈ headers, IsLine h)
    (hne : ∀ h ∈ headers, h ≠ []) (body : Bytes) (n : ℕ) :
    headerLoop n (headerSection headers body) = (headers.take n).map (·.take 255) := by
  induction headers generalizing n with
  | nil =>
    cases n with
    | zero => rfl
    | succ n => simp [headerLoop, headerSection, strstr_crlf]
  | cons h headers ih =>
    cases n with
    | zero => rfl
    | succ n =>
      have hsection : headerSection (h :: headers) body =
          h ++ (crlf ++ headerSection headers body) := by
        simp [headerSection]
      obtain ⟨b, h', rfl⟩ := List.exists_cons_of_ne_nil (hne h List.mem_cons_self)
      rw [hsection, headerLoop, strstr_crlf_line (hlines _ List.mem_cons_self)]
      simp only [List.take_succ_cons, List.map_cons, List.cons.injEq, true_and]
      have hdrop : (crlf ++ headerSection headers body).drop 2 = headerSection headers body := rfl
      rw [hdrop]
      exact ih (fun x hx => hlines x (List.mem_cons_of_mem _ hx))
        (fun x hx => hne x (List.mem_cons_of_mem _ hx)) n

theorem isLine_not_isCrLf {l : Bytes} (hl : IsLine l) {b : UInt8} (hb : b ∈ l) : isCrLf b = false := by
  obtain ⟨h13, h10, -⟩ := hl b hb
  simp [isCrLf, h13, h10]

/-- The request line is what the first scan finds. -/
theorem takeWhile_raw (t : RequestText) : t.raw.takeWhile (fun b => !isCrLf b) = t.requestLine := by
  rw [RequestText.raw, List.takeWhile_append_of_pos fun b hb => by
    simp [isLine_not_isCrLf t.requestLine_isLine hb]]
  simp [crlf, isCrLf]

/-- Where the second scan stops. -/
theorem dropWhile_headerSection {headers : List Bytes} (hlines : ∀ h ∈ headers, IsLine h)
    (hne : ∀ h ∈ headers, h ≠ []) (body : Bytes) :
    (crlf ++ headerSection headers body).dropWhile isCrLf =
      if headers = [] then body.dropWhile isCrLf else headerSection headers body := by
  cases headers with
  | nil => simp [headerSection, crlf, isCrLf]
  | cons h headers =>
    obtain ⟨b, h', rfl⟩ := List.exists_cons_of_ne_nil (hne h List.mem_cons_self)
    have hb := isLine_not_isCrLf (hlines _ List.mem_cons_self) (List.mem_cons_self (a := b) (l := h'))
    have hsection : headerSection ((b :: h') :: headers) body =
        b :: (h' ++ (crlf ++ headerSection headers body)) := by
      simp [headerSection]
    rw [if_neg (by simp), hsection]
    have h13 : isCrLf 13 = true := rfl
    have h10 : isCrLf 10 = true := rfl
    simp [crlf, hb, h13, h10]

/-- A scan fails if there is no occurrence in front of the NUL. -/
theorem strstr_crlf_eq_none (s : Bytes) : strstr crlf s = none ↔ ¬ crlf <:+: s.takeWhile (· ≠ 0) := by
  induction s with
  | nil => simp [strstr, crlf]
  | cons b s ih =>
    rw [strstr]
    by_cases hprefix : crlf.isPrefixOf (b :: s) = true
    · rw [if_pos hprefix]
      obtain ⟨u, hu⟩ := List.isPrefixOf_iff_prefix.mp hprefix
      refine iff_of_false (by simp) (not_not.mpr ?_)
      rw [← hu]
      exact (List.prefix_append crlf (u.takeWhile (· ≠ 0))).isInfix
    · rw [if_neg hprefix]
      by_cases hb : b = 0
      · simp [hb, crlf]
      · have hnot : ¬ crlf <+: b :: s.takeWhile (· ≠ 0) := by
          intro h
          refine hprefix (List.isPrefixOf_iff_prefix.mpr (h.trans ?_))
          exact List.cons_prefix_cons.mpr ⟨rfl, List.takeWhile_prefix _⟩
        rw [if_neg hb, Option.map_eq_none_iff, ih, List.takeWhile_cons_of_pos (by simpa using hb),
          List.infix_cons_iff, not_or]
        exact (and_iff_right hnot).symm

/-- An occurrence with nothing in front of it. -/
theorem strstr_eq_nil {needle s tail : Bytes} (h : strstr needle s = some ([], tail)) :
    needle <+: s := by
  cases s with
  | nil => simp [strstr] at h
  | cons b s =>
    rw [strstr] at h
    split_ifs at h with hprefix
    · exact List.isPrefixOf_iff_prefix.mp hprefix
    · obtain ⟨r, -, hr⟩ := Option.map_eq_some_iff.mp h
      simp at hr

/-- The headers that are read from the body of a request without headers. -/
theorem headerLoop_eq_nil (n : ℕ) (body : Bytes) :
    headerLoop (n + 1) (body.dropWhile isCrLf) = [] ↔
      strstr crlf (body.dropWhile isCrLf) = none := by
  constructor
  · intro h
    rw [headerLoop] at h
    split at h
    · assumption
    · next tail hfound =>
      -- the scan has skipped all CR, so the text does not start with an empty line
      obtain ⟨u, hu⟩ := strstr_eq_nil hfound
      have hhead := List.head?_dropWhile_not isCrLf body
      rw [← hu] at hhead
      simp [crlf, isCrLf] at hhead
    · simp at h
  · intro h
    rw [headerLoop, h]

theorem body_parse {t : RequestText} (hlen : t.raw.length < bufSize) {req : HttpRequest}
    (h : parseHttpRequest t.raw = some req) : req.body = t.body := by
  obtain ⟨front, hfront⟩ := strstr_headerSection t.requestLine_isLine t.headers_isLine
    t.headers_ne_nil t.body
  have hshort : t.body.length ≤ bufSize - 1 := by
    simp only [RequestText.raw, headerSection, List.length_append] at hlen
    omega
  simp only [parseHttpRequest] at h
  split_ifs at h
  rw [← Option.some.inj h]
  dsimp only
  rw [RequestText.raw, hfront]
  exact List.take_of_length_le hshort

theorem headers_parse {t : RequestText} {req : HttpRequest} (h : parseHttpRequest t.raw = some req) :
    req.headers = headerLoop maxHeaders
      (if t.headers = [] then t.body.dropWhile isCrLf else headerSection t.headers t.body) := by
  simp only [parseHttpRequest, takeWhile_raw] at h
  split_ifs at h
  rw [← Option.some.inj h]
  dsimp only
  rw [RequestText.raw, List.drop_left, dropWhile_headerSection t.headers_isLine t.headers_ne_nil]

theorem parse_isSome_iff (t : RequestText) :
    (∃ req, parseHttpRequest t.raw = some req) ↔ t.requestLine.length < 8192 := by
  simp only [parseHttpRequest, takeWhile_raw]
  split_ifs with hlen
  · simp [hlen]
  · simp [not_le.mp hlen]

/-- A request is taken apart correctly unless it has no headers and a line in its body: one that ends
with CRLF, after any CR and LF bytes and in front of any NUL. -/
theorem parse_correct_iff (t : RequestText) (hlen : t.raw.length < bufSize) :
    Correct t ↔ t.headers ≠ [] ∨ 8192 ≤ t.requestLine.length ∨
      ¬ crlf <:+: (t.body.dropWhile isCrLf).takeWhile (· ≠ 0) := by
  by_cases hheaders : t.headers = []
  · have hcount : maxHeaders = 63 + 1 := rfl
    by_cases hline : t.requestLine.length < 8192
    · obtain ⟨req, hreq⟩ := (parse_isSome_iff t).mpr hline
      have hfound := headers_parse hreq
      rw [if_pos hheaders, hcount] at hfound
      rw [← strstr_crlf_eq_none, ← headerLoop_eq_nil 63]
      simp only [hheaders, ne_eq, not_true, false_or, not_le.mpr hline]
      constructor
      · intro hcorrect
        rw [← hfound, (hcorrect req hreq).1, hheaders]
        rfl
      · intro hnone req' hreq'
        obtain rfl := Option.some.inj (hreq.symm.trans hreq')
        exact ⟨by rw [hfound, hnone, hheaders]; rfl, body_parse hlen hreq⟩
    · refine iff_of_true (fun req hreq => absurd ((parse_isSome_iff t).mp ⟨req, hreq⟩) hline) ?_
      exact Or.inr (Or.inl (not_lt.mp hline))
  · refine iff_of_true (fun req hreq => ⟨?_, body_parse hlen hreq⟩) (Or.inl hheaders)
    rw [headers_parse hreq, if_neg hheaders,
      headerLoop_headerSection t.headers_isLine t.headers_ne_nil]

/-- `GET / HTTP/1.1` with one header and one line of body. -/
def oneHeader : RequestText :=
  { requestLine := [71, 69, 84, 32, 47, 32, 72, 84, 84, 80, 47, 49, 46, 49]
    headers := [[65, 58, 32, 49]]
    body := [66, 58, 32, 50, 13, 10]
    requestLine_isLine := by simp [IsLine]
    headers_isLine := by simp [IsLine]
    headers_ne_nil := by decide }

theorem parse_correct_oneHeader : Correct oneHeader :=
  (parse_correct_iff oneHeader (by decide)).mpr (Or.inl (by decide))

def noHeader : RequestText :=
  { oneHeader with headers := [], headers_isLine := by simp, headers_ne_nil := by simp }

/-- The line of the body is taken for a header. -/
theorem not_correct_noHeader : ¬ Correct noHeader := by
  intro h
  have hparse : (parseHttpRequest noHeader.raw).map (·.headers) = some [[66, 58, 32, 50]] := by
    decide
  obtain ⟨req, hreq, hheaders⟩ := Option.map_eq_some_iff.mp hparse
  have hnone := (h req hreq).1
  rw [hheaders] at hnone
  simp [noHeader] at hnone

end SneppxAlg.Http
