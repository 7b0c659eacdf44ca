import Mathlib.Data.List.Forall2
import SneppxAlg.Net.HttpRequest

/-!
# Matching a path against a route

`match_route` of `net/http/http_server.c`, which goes through a pattern such as `/v1/models/{id}` and a
path at the same time. Outside of a placeholder both advance byte by byte; at a placeholder the pattern
advances behind its `}`, and the path to the next `/`. The loop stops when either of them ends.

Where every placeholder is a whole segment of the pattern, both are always in the same segment, and the
loop compares segment by segment (`matchLoop_segment`). A path is accepted if its segments are those of the
pattern, with something in place of each placeholder (`matchRoute_accepts_iff`).
-/

namespace SneppxAlg.Http

/-- `MAX_ROUTE_PARAMS`. -/
def maxRouteParams : ℕ := 8

/-- The entries of `params` that are in use: names and values. -/
abbrev Params := List (Bytes × Bytes)

/-- One more entry, if the table has room for it. -/
def Params.push (params : Params) (name value : Bytes) : Params :=
  if params.length < maxRouteParams then params ++ [(name.take 255, value.take 255)] else params

/-- The loop of `match_route`: the answer, with what has been captured until then. -/
def matchLoop (pattern path : Bytes) (params : Params) : Bool × Params :=
  match pattern, path with
  | p :: pattern', c :: path' =>
    if p = 0x7B then
      if 0x7D ∈ pattern' then
        let segment := (c :: path').takeWhile (· != 47)
        if segment = [] then (false, params)
        else
          matchLoop (pattern'.dropWhile (· != 0x7D)).tail ((c :: path').dropWhile (· != 47))
            (params.push (pattern'.takeWhile (· != 0x7D)) segment)
      else (false, params)
    else if p = c then matchLoop pattern' path' params
    else (false, params)
  | pattern, path => (pattern.isEmpty && path.isEmpty, params)
termination_by pattern.length
decreasing_by
  · have h := (List.dropWhile_sublist (l := pattern') (· != 0x7D)).length_le
    rw [List.length_tail, List.length_cons]
    omega
  · exact Nat.lt_succ_self _

/-- `match_route`. -/
def matchRoute (pattern path : Bytes) : Bool × Params := matchLoop pattern path []

/-! ## Patterns -/

/-- A segment of a pattern. A `{` begins a placeholder, so a literal has none. -/
inductive Segment
  | literal (text : Bytes) (plain : ∀ b ∈ text, b ≠ 47 ∧ b ≠ 0x7B)
  | placeholder (name : Bytes) (plain : ∀ b ∈ name, b ≠ 47 ∧ b ≠ 0x7D)

namespace Segment

def text : Segment → Bytes
  | literal text _ => text
  | placeholder name _ => 0x7B :: (name ++ [0x7D])

/-- What a segment asks of that of the path. -/
def Accepts : Segment → Bytes → Prop
  | literal text _, s => s = text
  | placeholder .., s => s ≠ []

instance : (seg : Segment) → (s : Bytes) → Decidable (seg.Accepts s)
  | literal text _, s => inferInstanceAs (Decidable (s = text))
  | placeholder .., s => inferInstanceAs (Decidable (s ≠ []))

/-- The parameter that it takes from that of the path. -/
def captured : Segment → Bytes → Params
  | literal .., _ => []
  | placeholder name _, s => [(name, s.take 255)]

def isPlaceholder : Segment → Bool
  | literal .. => false
  | placeholder .. => true

end Segment

/-- The text of a pattern: its segments, with a `/` between each two. -/
def patternText (segs : List Segment) : Bytes := [47].intercalate (segs.map Segment.text)

/-- A route pattern whose placeholders fill whole segments. It is kept in `path_pattern[256]`. -/
structure Pattern where
  segs : List Segment
  segs_ne_nil : segs ≠ []
  placeholders_le : segs.countP Segment.isPlaceholder ≤ maxRouteParams
  length_le : (patternText segs).length ≤ 255

def Pattern.text (p : Pattern) : Bytes := patternText p.segs

/-! ## One segment -/

/-- A text that ends here, or goes on with the next segment. -/
def AtEnd (t : Bytes) : Prop := ∀ b ∈ t.head?, b = 47

theorem atEnd_nil : AtEnd [] := by simp [AtEnd]

theorem atEnd_cons (t : Bytes) : AtEnd (47 :: t) := by simp [AtEnd]

theorem AtEnd.takeWhile {s t : Bytes} (hs : 47 ∉ s) (ht : AtEnd t) : (s ++ t).takeWhile (· != 47) = s := by
  rw [List.takeWhile_append_of_pos fun b hb => by simpa using ne_of_mem_of_not_mem hb hs]
  cases t with
  | nil => simp
  | cons b t => rw [ht b rfl]; simp

theorem AtEnd.dropWhile {s t : Bytes} (hs : 47 ∉ s) (ht : AtEnd t) : (s ++ t).dropWhile (· != 47) = t := by
  rw [List.dropWhile_append_of_pos fun b hb => by simpa using ne_of_mem_of_not_mem hb hs]
  cases t with
  | nil => rfl
  | cons b t => rw [ht b rfl]; simp

variable {s t r : Bytes} {params : Params}

@[simp] theorem matchLoop_nil_left : matchLoop [] r params = (r.isEmpty, params) := by
  rw [matchLoop]
  · simp
  · rintro _ _ _ _ ⟨⟩

@[simp] theorem matchLoop_nil_right : matchLoop t [] params = (t.isEmpty, params) := by
  rw [matchLoop]
  · simp
  · rintro _ _ _ _ _ ⟨⟩

theorem matchLoop_cons {b c : UInt8} (hb : b ≠ 0x7B) :
    matchLoop (b :: t) (c :: r) params = if b = c then matchLoop t r params else (false, params) := by
  rw [matchLoop, if_neg hb]

theorem matchLoop_literal {text : Bytes} (plain : ∀ b ∈ text, b ≠ 47 ∧ b ≠ 0x7B) (hs : 47 ∉ s) (ht : AtEnd t)
    (hr : AtEnd r) :
    matchLoop (text ++ t) (s ++ r) params = if s = text then matchLoop t r params else (false, params) := by
  induction text generalizing s with
  | nil =>
    cases s with
    | nil => simp
    | cons c s =>
      -- The pattern is at the end of its segment, and the path is not.
      cases t with
      | nil => simp
      | cons b t =>
        obtain rfl := ht b rfl
        have hne : (47 : UInt8) ≠ c := fun h => hs (h ▸ List.mem_cons_self)
        rw [List.nil_append, List.cons_append, matchLoop_cons (by decide), if_neg hne, if_neg (by simp)]
  | cons b text ih =>
    obtain ⟨⟨hslash, hbrace⟩, plain⟩ := List.forall_mem_cons.mp plain
    cases s with
    | nil =>
      cases r with
      | nil => simp
      | cons c r =>
        obtain rfl := hr c rfl
        rw [List.nil_append, List.cons_append, matchLoop_cons hbrace, if_neg hslash, if_neg (by simp)]
    | cons c s =>
      have hs' : 47 ∉ s := fun h => hs (List.mem_cons_of_mem _ h)
      rw [List.cons_append, List.cons_append, matchLoop_cons hbrace, ih plain hs']
      by_cases hbc : b = c
      · subst hbc
        simp
      · rw [if_neg hbc, if_neg (by simp [Ne.symm hbc])]

theorem matchLoop_placeholder {name : Bytes} (plain : ∀ b ∈ name, b ≠ 47 ∧ b ≠ 0x7D) (hs : 47 ∉ s)
    (hr : AtEnd r) :
    matchLoop (0x7B :: (name ++ [0x7D]) ++ t) (s ++ r) params =
      if s = [] then (false, params) else matchLoop t r (params.push name s) := by
  have hclose : ∀ b ∈ name, (b != 0x7D) = true := fun b hb => by simpa using (plain b hb).2
  have hname : (name ++ 0x7D :: t).takeWhile (· != 0x7D) = name := by
    simp [List.takeWhile_append_of_pos hclose]
  have hrest : ((name ++ 0x7D :: t).dropWhile (· != 0x7D)).tail = t := by
    simp [List.dropWhile_append_of_pos hclose]
  have htext : 0x7B :: (name ++ [0x7D]) ++ t = 0x7B :: (name ++ 0x7D :: t) := by simp
  cases hpath : s ++ r with
  | nil =>
    have hnil : s = [] := (List.append_eq_nil_iff.mp hpath).1
    rw [matchLoop_nil_right, if_pos hnil]
    rfl
  | cons c path =>
    rw [htext, matchLoop, if_pos rfl, if_pos (by simp), hname, hrest, ← hpath, hr.takeWhile hs, hr.dropWhile hs]

theorem matchLoop_segment (seg : Segment) (hs : 47 ∉ s) (ht : AtEnd t) (hr : AtEnd r)
    (hroom : params.length + [seg].countP Segment.isPlaceholder ≤ maxRouteParams) (hname : seg.text.length ≤ 255) :
    matchLoop (seg.text ++ t) (s ++ r) params =
      if seg.Accepts s then matchLoop t r (params ++ seg.captured s) else (false, params) := by
  cases seg with
  | literal text plain =>
    rw [Segment.text, matchLoop_literal plain hs ht hr]
    simp [Segment.Accepts, Segment.captured]
  | placeholder name plain =>
    have hpush : params.push name s = params ++ [(name, s.take 255)] := by
      have hlt : params.length < maxRouteParams := hroom
      have hle : name.length ≤ 255 := by
        simp only [Segment.text, List.length_cons, List.length_append] at hname
        omega
      rw [Params.push, if_pos hlt, List.take_of_length_le hle]
    rw [Segment.text, matchLoop_placeholder plain hs hr, hpush]
    by_cases hnil : s = [] <;> simp [Segment.Accepts, Segment.captured, hnil]

/-! ## All segments -/

/-- The parameters that the segments take from those of a path. -/
def capturedAll (segs : List Segment) (path : List Bytes) : Params :=
  (segs.zip path).flatMap fun x => x.1.captured x.2

theorem exists_segment (path : Bytes) :
    ∃ s r, 47 ∉ s ∧ path = s ++ r ∧ (r = [] ∧ path.splitOn 47 = [s] ∨
      ∃ path', r = 47 :: path' ∧ path.splitOn 47 = s :: path'.splitOn 47) := by
  have hs : 47 ∉ path.takeWhile (· != 47) := fun h => by simpa using List.mem_takeWhile_imp h
  refine ⟨path.takeWhile (· != 47), path.dropWhile (· != 47), hs, List.takeWhile_append_dropWhile.symm, ?_⟩
  cases hr : path.dropWhile (· != 47) with
  | nil =>
    have hpath : path.takeWhile (· != 47) = path := by
      simpa [hr] using List.takeWhile_append_dropWhile (p := (· != 47)) (l := path)
    rw [hpath] at hs ⊢
    exact .inl ⟨rfl, List.splitOn_eq_singleton hs⟩
  | cons b path' =>
    have hb : b = 47 := by
      have h := List.head_dropWhile_not (· != (47 : UInt8)) (l := path) (by simp [hr])
      simpa [hr] using h
    subst hb
    refine .inr ⟨path', rfl, ?_⟩
    rw [← List.splitOn_append_cons_self_of_not_mem hs, ← hr, List.takeWhile_append_dropWhile]

theorem patternText_cons (seg next : Segment) (segs : List Segment) :
    patternText (seg :: next :: segs) = seg.text ++ 47 :: patternText (next :: segs) := by
  simp [patternText, List.intercalate]

theorem matchLoop_patternText {segs : List Segment} (hne : segs ≠ []) (path : Bytes)
    (hroom : params.length + segs.countP Segment.isPlaceholder ≤ maxRouteParams)
    (hlen : (patternText segs).length ≤ 255) :
    ((matchLoop (patternText segs) path params).1 = true ↔
      List.Forall₂ Segment.Accepts segs (path.splitOn 47)) ∧
    ((matchLoop (patternText segs) path params).1 = true →
      (matchLoop (patternText segs) path params).2 = params ++ capturedAll segs (path.splitOn 47)) := by
  induction segs generalizing path params with
  | nil => exact absurd rfl hne
  | cons seg segs ih =>
    obtain ⟨s, r, hs, rfl, hpath⟩ := exists_segment path
    have hr : AtEnd r := by
      rcases hpath with ⟨rfl, -⟩ | ⟨path', rfl, -⟩
      · exact atEnd_nil
      · exact atEnd_cons path'
    rw [← List.singleton_append, List.countP_append] at hroom
    cases segs with
    | nil =>
      have htext : patternText [seg] = seg.text ++ [] := by simp [patternText]
      rw [htext, List.append_nil] at hlen
      rw [htext, matchLoop_segment seg hs atEnd_nil hr (by omega) hlen]
      rcases hpath with ⟨rfl, hsplit⟩ | ⟨path', rfl, hsplit⟩
      · rw [hsplit]
        split_ifs with h <;> simp [h, capturedAll]
      · rw [hsplit]
        obtain ⟨s', l, hl⟩ := List.exists_cons_of_ne_nil (List.splitOn_ne_nil 47 path')
        split_ifs <;> simp [hl]
    | cons next segs =>
      rw [patternText_cons, List.length_append, List.length_cons] at hlen
      rw [patternText_cons, matchLoop_segment seg hs (atEnd_cons _) hr (by omega) (by omega)]
      rcases hpath with ⟨rfl, hsplit⟩ | ⟨path', rfl, hsplit⟩
      · rw [hsplit]
        split_ifs <;> simp
      · have hroom' : (params ++ seg.captured s).length + (next :: segs).countP Segment.isPlaceholder ≤
            maxRouteParams := by
          have hcaptured : (seg.captured s).length = [seg].countP Segment.isPlaceholder := by cases seg <;> rfl
          rw [List.length_append, hcaptured]
          omega
        obtain ⟨hiff, hparams⟩ := ih (by simp) path' hroom' (by omega)
        rw [hsplit]
        split_ifs with h
        · rw [matchLoop_cons (by decide), if_pos rfl]
          refine ⟨by rw [hiff, List.forall₂_cons, and_iff_right h], fun htrue => ?_⟩
          rw [hparams htrue, capturedAll, capturedAll, List.zip_cons_cons, List.flatMap_cons, List.append_assoc]
        · simp [h]

/-- A path is accepted if it has the segments of the pattern, with a text that is not empty in place of each
placeholder. Then the parameters are the names of the placeholders with these texts, in order and cut to what
the table holds. -/
theorem matchRoute_accepts_iff (p : Pattern) (path : Bytes) :
    ((matchRoute p.text path).1 = true ↔ List.Forall₂ Segment.Accepts p.segs (path.splitOn 47)) ∧
    ((matchRoute p.text path).1 = true →
      (matchRoute p.text path).2 = capturedAll p.segs (path.splitOn 47)) :=
  matchLoop_patternText p.segs_ne_nil path (by simpa using p.placeholders_le) p.length_le

end SneppxAlg.Http
