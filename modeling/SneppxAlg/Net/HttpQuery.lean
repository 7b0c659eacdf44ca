import Mathlib.Data.List.Basic
import SneppxAlg.Net.HttpRequest

/-!
# Looking up a query parameter

`SNEPPX_http_request_query` of `net/http/http_server.c`, which goes through the pairs of a query string
`k1=v1&k2=v2`. At each of them it looks for the next `=` and for the next `&`, and takes the bytes up to the
`=` as the name.

Where a pair has no `=`, this is the `=` of a later pair, and the name is the text of all pairs up to there
(`Spelled`). Its own name is seen only if no later pair has one. The answer points into the query string,
so it ends where the query string ends, and not at the next `&`. `requestQuery_iff` says for which
queries the answer is right in spite of this.

A C string is the list of its bytes in front of the NUL.
-/

namespace SneppxAlg.Http

/-- The outer loop: `q` is the rest of the query string. -/
def queryLoop (key : Bytes) (q : Bytes) : Option Bytes :=
  if q = [] then none
  else
    let p := q.dropWhile (· == 38)
    let name := if 61 ∈ p then p.takeWhile (· != 61) else p.takeWhile (· != 38)
    if key = name then some (if 61 ∈ p then (p.dropWhile (· != 61)).tail else [])
    else if 38 ∈ p then queryLoop key (p.dropWhile (· != 38)).tail
    else none
termination_by q.length
decreasing_by
  have h1 := (List.dropWhile_sublist (l := q) (· == 38)).length_le
  have h2 := (List.dropWhile_sublist (l := q.dropWhile (· == 38)) (· != 38)).length_le
  have hq := List.length_pos_of_ne_nil ‹_›
  rw [List.length_tail]
  omega

/-- `SNEPPX_http_request_query`. -/
def requestQuery (req : HttpRequest) (key : Bytes) : Option Bytes :=
  if req.query = [] then none else queryLoop key req.query

/-! ## Query strings -/

/-- A pair of a query string. The name of a pair without `=` is not empty, since an empty text between
two `&` is no pair. -/
structure Pair where
  name : Bytes
  value : Option Bytes
  name_plain : ∀ b ∈ name, b ≠ 38 ∧ b ≠ 61
  value_plain : ∀ v ∈ value, 38 ∉ v
  name_ne_nil : value = none → name ≠ []

def Pair.text (p : Pair) : Bytes :=
  match p.value with
  | none => p.name
  | some v => p.name ++ 61 :: v

/-- The pairs that follow another one. -/
def behind : List Pair → Bytes
  | [] => []
  | p :: ps => 38 :: (p.text ++ behind ps)

def render : List Pair → Bytes
  | [] => []
  | p :: ps => p.text ++ behind ps

/-- The value of the first pair with the name. -/
def lookup (key : Bytes) (pairs : List Pair) : Option Bytes :=
  (pairs.find? (·.name == key)).map fun p => p.value.getD []

/-- The key is the text of some pairs without `=` and of the name behind them. -/
def Spelled (key : Bytes) (pairs : List Pair) : Prop :=
  ∃ front run p back, pairs = front ++ run ++ p :: back ∧ run ≠ [] ∧ (∀ r ∈ run, r.value = none) ∧
    p.value ≠ none ∧ key = run.flatMap (·.name ++ [38]) ++ p.name

/-- No pair with the name has an `=`, and one of them stands behind all pairs that have one. -/
def FlagBehind (key : Bytes) (pairs : List Pair) : Prop :=
  (∀ p ∈ pairs, p.name = key → p.value = none) ∧
    ∃ front p back, pairs = front ++ p :: back ∧ p.name = key ∧ ∀ r ∈ back, r.value = none

/-- The last pair is the first one with the name and an `=`, and a pair with the name in front of it
makes no difference. -/
def ValueLast (key : Bytes) (pairs : List Pair) : Prop :=
  ∃ front p v, pairs = front ++ [p] ∧ p.name = key ∧ p.value = some v ∧
    (∀ r ∈ front, r.name = key → r.value = none) ∧ (v = [] ∨ ∀ r ∈ front, r.name ≠ key)

/-! ## One pair -/

variable {key : Bytes} {p : Pair} {ps : List Pair}

theorem amp_not_mem_text : 38 ∉ p.text := by
  intro hmem
  unfold Pair.text at hmem
  split at hmem
  · exact (p.name_plain 38 hmem).1 rfl
  · rename_i v hv
    rcases List.mem_append.mp hmem with hname | hvalue
    · exact (p.name_plain 38 hname).1 rfl
    · exact p.value_plain v hv (by simpa using hvalue)

theorem eq_mem_text : 61 ∈ p.text ↔ p.value ≠ none := by
  unfold Pair.text
  split
  · rename_i hv
    simpa [hv] using fun hmem => (p.name_plain 61 hmem).2 rfl
  · rename_i v hv
    simp [hv]

theorem eq_mem_behind : 61 ∈ behind ps ↔ ∃ r ∈ ps, r.value ≠ none := by
  induction ps with
  | nil => simp [behind]
  | cons p ps ih => simp [behind, eq_mem_text, ih]

theorem text_ne_nil : p.text ≠ [] := by
  unfold Pair.text
  split
  · exact p.name_ne_nil ‹_›
  · simp

theorem takeWhile_ne_append {b : UInt8} {s t : Bytes} (h : b ∉ s) :
    (s ++ t).takeWhile (· != b) = s ++ t.takeWhile (· != b) :=
  List.takeWhile_append_of_pos fun a ha => by
    simpa using fun heq : a = b => h (heq ▸ ha)

theorem dropWhile_ne_append {b : UInt8} {s t : Bytes} (h : b ∉ s) :
    (s ++ t).dropWhile (· != b) = t.dropWhile (· != b) :=
  List.dropWhile_append_of_pos fun a ha => by
    simpa using fun heq : a = b => h (heq ▸ ha)

theorem dropWhile_amp : (p.text ++ behind ps).dropWhile (· == 38) = p.text ++ behind ps := by
  obtain ⟨b, t, ht⟩ := List.exists_cons_of_ne_nil (text_ne_nil (p := p))
  have hb : b ≠ 38 := fun h => amp_not_mem_text (p := p) (by simp [ht, h])
  rw [ht, List.cons_append, List.dropWhile_cons_of_neg (by simpa using hb)]

/-- Where a pair does not answer, the next one is tried. -/
theorem dropWhile_render :
    (if 38 ∈ p.text ++ behind ps then
        queryLoop key ((p.text ++ behind ps).dropWhile (· != 38)).tail
      else none) = queryLoop key (render ps) := by
  rw [dropWhile_ne_append amp_not_mem_text]
  cases ps with
  | nil => simp [behind, render, amp_not_mem_text, queryLoop]
  | cons r rs => simp [behind, render]

theorem render_ne_nil : render (p :: ps) ≠ [] := by
  simp [render, text_ne_nil]

/-- A pair with an `=` gives everything behind it. -/
theorem queryLoop_valued {v : Bytes} (hv : p.value = some v) :
    queryLoop key (render (p :: ps)) =
      if key = p.name then some (v ++ behind ps) else queryLoop key (render ps) := by
  have htext : p.text ++ behind ps = p.name ++ 61 :: (v ++ behind ps) := by simp [Pair.text, hv]
  have hname : 61 ∉ p.name := fun h => (p.name_plain 61 h).2 rfl
  have hmem : 61 ∈ p.text ++ behind ps := by simp [htext]
  rw [queryLoop, if_neg render_ne_nil, render, dropWhile_amp]
  simp only [if_pos hmem, dropWhile_render]
  rw [htext, takeWhile_ne_append hname, dropWhile_ne_append hname]
  simp

/-- A pair without `=` gives the empty value, if no later pair has one. -/
theorem queryLoop_flag (hv : p.value = none) (hps : ∀ r ∈ ps, r.value = none) :
    queryLoop key (render (p :: ps)) = if key = p.name then some [] else queryLoop key (render ps) := by
  have htext : p.text = p.name := by simp [Pair.text, hv]
  have hmem : 61 ∉ p.text ++ behind ps := by
    rw [List.mem_append, eq_mem_text, eq_mem_behind]
    rintro (h | ⟨r, hr, h⟩)
    · exact h hv
    · exact h (hps r hr)
  have hname : (p.text ++ behind ps).takeWhile (· != 38) = p.name := by
    rw [takeWhile_ne_append amp_not_mem_text, htext]
    cases ps <;> simp [behind]
  rw [queryLoop, if_neg render_ne_nil, render, dropWhile_amp]
  simp only [if_neg hmem, dropWhile_render, hname]

/-- The text that is taken for a name. -/
def scanned : List Pair → Bytes
  | [] => []
  | p :: ps => if p.value = none then p.name ++ 38 :: scanned ps else p.name

theorem takeWhile_render (hps : ∃ r ∈ p :: ps, r.value ≠ none) :
    (render (p :: ps)).takeWhile (· != 61) = scanned (p :: ps) := by
  induction ps generalizing p with
  | nil =>
    obtain ⟨r, hr, hv⟩ := hps
    obtain rfl := List.mem_singleton.mp hr
    obtain ⟨v, hv⟩ := Option.ne_none_iff_exists'.mp hv
    have hname : 61 ∉ r.name := fun h => (r.name_plain 61 h).2 rfl
    simp only [render, behind, Pair.text, hv, scanned, List.append_nil]
    rw [takeWhile_ne_append hname]
    simp
  | cons r rs ih =>
    have hname : 61 ∉ p.name := fun h => (p.name_plain 61 h).2 rfl
    rw [scanned, render, Pair.text]
    cases hv : p.value with
    | none =>
      have hrest : ∃ r' ∈ r :: rs, r'.value ≠ none := by
        obtain ⟨r', hr', hv'⟩ := hps
        rcases List.mem_cons.mp hr' with rfl | hmem
        · exact absurd hv hv'
        · exact ⟨r', hmem, hv'⟩
      have hbehind : behind (r :: rs) = 38 :: render (r :: rs) := rfl
      simp only [if_true]
      rw [takeWhile_ne_append hname, hbehind, List.takeWhile_cons_of_pos (by decide), ih hrest]
    | some v =>
      simp only [List.append_assoc, reduceCtorEq, if_false]
      rw [takeWhile_ne_append hname]
      simp

/-- A pair without `=` takes its name together with those of the pairs up to the next one that has an
`=`. -/
theorem queryLoop_hidden (hps : ∃ r ∈ ps, r.value ≠ none) :
    ∃ answer, queryLoop key (render (p :: ps)) =
      if key = scanned (p :: ps) then some answer else queryLoop key (render ps) := by
  obtain ⟨r, hr, hvr⟩ := hps
  have hmem : 61 ∈ p.text ++ behind ps :=
    List.mem_append_right _ (eq_mem_behind.mpr ⟨r, hr, hvr⟩)
  have hscanned := takeWhile_render ⟨r, List.mem_cons_of_mem p hr, hvr⟩
  refine ⟨((p.text ++ behind ps).dropWhile (· != 61)).tail, ?_⟩
  rw [queryLoop, if_neg render_ne_nil, ← hscanned, render, dropWhile_amp]
  simp only [if_pos hmem, dropWhile_render]

theorem amp_mem_scanned (hv : p.value = none) : 38 ∈ scanned (p :: ps) := by
  simp [scanned, hv]

/-! ## Keys without `&` -/

section Plain

variable (hkey : 38 ∉ key)
include hkey

theorem queryLoop_hidden_plain (hv : p.value = none) (hps : ∃ r ∈ ps, r.value ≠ none) :
    queryLoop key (render (p :: ps)) = queryLoop key (render ps) := by
  obtain ⟨answer, h⟩ := @queryLoop_hidden key p ps hps
  have hne : key ≠ scanned (p :: ps) := fun heq => hkey (heq ▸ amp_mem_scanned hv)
  rw [h, if_neg hne]

/-- The first pair with the name and an `=` answers. -/
theorem queryLoop_first {front back : List Pair} {v : Bytes} (hv : p.value = some v)
    (hname : p.name = key) (hfront : ∀ r ∈ front, r.name = key → r.value = none) :
    queryLoop key (render (front ++ p :: back)) = some (v ++ behind back) := by
  induction front with
  | nil => rw [List.nil_append, queryLoop_valued hv, if_pos hname.symm]
  | cons r rs ih =>
    have hrest := ih fun r' hr' => hfront r' (List.mem_cons_of_mem r hr')
    rw [List.cons_append]
    cases hr : r.value with
    | none =>
      rw [queryLoop_hidden_plain hkey hr ⟨p, by simp, by simp [hv]⟩, hrest]
    | some v' =>
      have hne : key ≠ r.name := fun heq => by
        simp [hfront r List.mem_cons_self heq.symm] at hr
      rw [queryLoop_valued hr, if_neg hne, hrest]

/-- Without such a pair, one that stands behind every `=` answers. -/
theorem queryLoop_flags {front back : List Pair} (hname : p.name = key) (hback : ∀ r ∈ back, r.value = none)
    (hall : ∀ r ∈ front ++ p :: back, r.name = key → r.value = none) :
    queryLoop key (render (front ++ p :: back)) = some [] := by
  induction front with
  | nil =>
    rw [List.nil_append, queryLoop_flag (hall p (by simp) hname) hback, if_pos hname.symm]
  | cons r rs ih =>
    have hrest := ih fun r' hr' => hall r' (List.mem_cons_of_mem r hr')
    rw [List.cons_append]
    cases hr : r.value with
    | none =>
      by_cases hlater : ∃ r' ∈ rs ++ p :: back, r'.value ≠ none
      · rw [queryLoop_hidden_plain hkey hr hlater, hrest]
      · rw [queryLoop_flag hr (by simpa using hlater)]
        split_ifs
        · rfl
        · exact hrest
    | some v' =>
      have hne : key ≠ r.name := fun heq => by
        simp [hall r List.mem_cons_self heq.symm] at hr
      rw [queryLoop_valued hr, if_neg hne, hrest]

theorem queryLoop_none (pairs : List Pair) (hall : ∀ r ∈ pairs, r.name = key → r.value = none)
    (hhidden : ∀ front p back, pairs = front ++ p :: back → p.name = key → ∃ r ∈ back, r.value ≠ none) :
    queryLoop key (render pairs) = none := by
  induction pairs with
  | nil => simp [render, queryLoop]
  | cons r rs ih =>
    have hrest := ih (fun r' hr' => hall r' (List.mem_cons_of_mem r hr')) fun front p back heq =>
      hhidden (r :: front) p back (by rw [heq, List.cons_append])
    cases hr : r.value with
    | none =>
      by_cases hlater : ∃ r' ∈ rs, r'.value ≠ none
      · rw [queryLoop_hidden_plain hkey hr hlater, hrest]
      · have hne : key ≠ r.name := fun heq => hlater (hhidden [] r rs rfl heq.symm)
        rw [queryLoop_flag hr (by simpa using hlater), if_neg hne, hrest]
    | some v' =>
      have hne : key ≠ r.name := fun heq => by
        simp [hall r List.mem_cons_self heq.symm] at hr
      rw [queryLoop_valued hr, if_neg hne, hrest]

end Plain

/-! ## Keys with `&` -/

theorem scanned_append {run back : List Pair} (hrun : ∀ r ∈ run, r.value = none) (hv : p.value ≠ none) :
    scanned (run ++ p :: back) = run.flatMap (·.name ++ [38]) ++ p.name := by
  induction run with
  | nil => simp [scanned, hv]
  | cons r rs ih =>
    have hrest := ih fun r' hr' => hrun r' (List.mem_cons_of_mem r hr')
    rw [List.cons_append, scanned, if_pos (hrun r List.mem_cons_self), hrest]
    simp

theorem exists_first {α : Type*} {P : α → Prop} {l : List α} (h : ∃ a ∈ l, P a) :
    ∃ front a back, l = front ++ a :: back ∧ P a ∧ ∀ b ∈ front, ¬ P b := by
  classical
  obtain ⟨a, ha, hP⟩ := h
  have hsome : (l.find? fun a => decide (P a)).isSome :=
    List.find?_isSome.mpr ⟨a, ha, decide_eq_true hP⟩
  obtain ⟨b, hb⟩ := Option.isSome_iff_exists.mp hsome
  obtain ⟨hPb, front, back, rfl, hfront⟩ := List.find?_eq_some_iff_append.mp hb
  exact ⟨front, b, back, rfl, of_decide_eq_true hPb, fun c hc => by simpa using hfront c hc⟩

theorem spelled_cons : Spelled key (p :: ps) ↔
    (p.value = none ∧ (∃ r ∈ ps, r.value ≠ none) ∧ key = scanned (p :: ps)) ∨ Spelled key ps := by
  constructor
  · rintro ⟨front, run, q, back, heq, hne, hrun, hq, hkey⟩
    cases front with
    | nil =>
      obtain ⟨r, rs, rfl⟩ := List.exists_cons_of_ne_nil hne
      obtain ⟨rfl, rfl⟩ := List.cons.inj (by simpa using heq)
      refine Or.inl ⟨hrun p List.mem_cons_self, ⟨q, by simp, hq⟩, ?_⟩
      rw [hkey, ← List.cons_append, scanned_append hrun hq]
    | cons f fs =>
      obtain ⟨rfl, rfl⟩ := List.cons.inj (by simpa using heq)
      exact Or.inr ⟨fs, run, q, back, by simp, hne, hrun, hq, hkey⟩
  · rintro (⟨hv, hlater, hkey⟩ | ⟨front, run, q, back, rfl, hne, hrun, hq, hkey⟩)
    · obtain ⟨run, q, back, rfl, hq, hrun⟩ := exists_first hlater
      have hflags : ∀ r ∈ p :: run, r.value = none := by
        intro r hr
        rcases List.mem_cons.mp hr with rfl | hmem
        · exact hv
        · simpa using hrun r hmem
      refine ⟨[], p :: run, q, back, rfl, List.cons_ne_nil p run, hflags, hq, ?_⟩
      rw [hkey, ← scanned_append hflags hq, List.cons_append]
    · exact ⟨p :: front, run, q, back, rfl, hne, hrun, hq, hkey⟩

theorem queryLoop_eq_none_iff (hkey : 38 ∈ key) (pairs : List Pair) :
    queryLoop key (render pairs) = none ↔ ¬ Spelled key pairs := by
  have hne : ∀ r : Pair, key ≠ r.name := fun r heq => (r.name_plain 38 (heq ▸ hkey)).1 rfl
  induction pairs with
  | nil => simp [render, queryLoop, Spelled]
  | cons r rs ih =>
    have hspelled : ¬ Spelled key (r :: rs) ↔
        ¬ (r.value = none ∧ (∃ r' ∈ rs, r'.value ≠ none) ∧ key = scanned (r :: rs)) ∧
          queryLoop key (render rs) = none := by
      rw [spelled_cons, not_or]
      exact and_congr Iff.rfl ih.symm
    rw [hspelled]
    cases hr : r.value with
    | none =>
      by_cases hlater : ∃ r' ∈ rs, r'.value ≠ none
      · obtain ⟨answer, h⟩ := @queryLoop_hidden key r rs hlater
        rw [h]
        split_ifs with heq
        · simp [heq, hlater]
        · simp [heq]
      · rw [queryLoop_flag hr (by simpa using hlater), if_neg (hne r)]
        simp [hlater]
    | some v' =>
      rw [queryLoop_valued hr, if_neg (hne r)]
      simp

theorem not_spelled_of_plain (hkey : 38 ∉ key) (pairs : List Pair) : ¬ Spelled key pairs := by
  rintro ⟨_, run, _, _, _, hne, _, _, rfl⟩
  obtain ⟨r, rs, rfl⟩ := List.exists_cons_of_ne_nil hne
  exact hkey (by simp)

/-! ## When the lookup is right -/

theorem lookup_of_unnamed {pairs : List Pair} (h : ∀ r ∈ pairs, r.name ≠ key) : lookup key pairs = none := by
  have hfind : pairs.find? (·.name == key) = none := List.find?_eq_none.mpr fun r hr => by simpa using h r hr
  rw [lookup, hfind, Option.map_none]

theorem lookup_append {front back : List Pair} (hfront : ∀ r ∈ front, r.name ≠ key) (hname : p.name = key) :
    lookup key (front ++ p :: back) = some (p.value.getD []) := by
  have hfind : (front ++ p :: back).find? (·.name == key) = some p :=
    List.find?_eq_some_iff_append.mpr
      ⟨by simpa using hname, front, back, rfl, fun r hr => by simpa using hfront r hr⟩
  rw [lookup, hfind, Option.map_some]

theorem lookup_of_flags {front back : List Pair} {v : Bytes}
    (hflags : ∀ r ∈ front, r.name = key → r.value = none) (hname : p.name = key) (hv : p.value = some v) :
    lookup key (front ++ p :: back) = some (if ∃ r ∈ front, r.name = key then [] else v) := by
  split_ifs with h
  · obtain ⟨front, r, rest, rfl, hr, hfront⟩ := exists_first h
    rw [List.append_assoc, List.cons_append, lookup_append hfront hr, hflags r (by simp) hr, Option.getD_none]
  · rw [lookup_append (by simpa using h) hname, hv, Option.getD_some]

theorem behind_eq_nil_iff {back : List Pair} : behind back = [] ↔ back = [] := by
  cases back <;> simp [behind]

/-- Where some pair with the name has an `=`, the first of them answers. -/
theorem queryLoop_eq_lookup_iff_of_valued (hkey : 38 ∉ key) {pairs : List Pair}
    (h : ∃ p ∈ pairs, p.name = key ∧ p.value ≠ none) :
    queryLoop key (render pairs) = lookup key pairs ↔
      (∀ p ∈ pairs, p.name ≠ key) ∨ FlagBehind key pairs ∨ ValueLast key pairs := by
  obtain ⟨front, p, back, rfl, ⟨hname, hp⟩, hfront⟩ := exists_first h
  obtain ⟨v, hv⟩ := Option.ne_none_iff_exists'.mp hp
  have hflags : ∀ r ∈ front, r.name = key → r.value = none := by simpa using hfront
  rw [queryLoop_first hkey hv hname hflags, lookup_of_flags hflags hname hv]
  constructor
  · intro heq
    refine Or.inr (Or.inr ?_)
    split_ifs at heq with hflag
    · obtain ⟨rfl, hback⟩ := List.append_eq_nil_iff.mp (Option.some.inj heq)
      obtain rfl := behind_eq_nil_iff.mp hback
      exact ⟨front, p, [], rfl, hname, hv, hflags, Or.inl rfl⟩
    · obtain rfl := behind_eq_nil_iff.mp (List.append_right_eq_self.mp (Option.some.inj heq))
      exact ⟨front, p, v, rfl, hname, hv, hflags, Or.inr (by simpa using hflag)⟩
  · rintro (hunnamed | ⟨hnone, _⟩ | ⟨front', q, v', heq, hqname, hqv, hflags', hv'⟩)
    · exact absurd hname (hunnamed p (by simp))
    · exact absurd (hnone p (by simp) hname) hp
    · rcases List.eq_nil_or_concat back with rfl | ⟨back', r, rfl⟩
      · obtain ⟨rfl, hpq⟩ := List.append_inj' heq rfl
        obtain rfl := List.singleton_inj.mp hpq
        obtain rfl := Option.some.inj (hv.symm.trans hqv)
        rw [behind, List.append_nil]
        rcases hv' with rfl | hunnamed
        · simp
        · rw [if_neg (by simpa using hunnamed)]
      · -- the last pair is another one
        have hmem : p ∈ front' := by
          have hinit : front ++ p :: back' = front' :=
            (List.append_inj' (by simpa using heq : (front ++ p :: back') ++ [r] = front' ++ [q]) rfl).1
          simp [← hinit]
        exact absurd (hflags' p hmem hname) hp

/-- Where no pair with the name has one, a pair behind every `=` answers. -/
theorem queryLoop_eq_lookup_iff_of_flags (hkey : 38 ∉ key) {pairs : List Pair}
    (h : ∃ p ∈ pairs, p.name = key) (hflags : ∀ p ∈ pairs, p.name = key → p.value = none) :
    queryLoop key (render pairs) = lookup key pairs ↔
      (∀ p ∈ pairs, p.name ≠ key) ∨ FlagBehind key pairs ∨ ValueLast key pairs := by
  have hlookup : lookup key pairs = some [] := by
    obtain ⟨front, p, back, rfl, hname, hfront⟩ := exists_first h
    rw [lookup_append hfront hname, hflags p (by simp) hname, Option.getD_none]
  rw [hlookup]
  constructor
  · intro heq
    by_contra hcond
    simp only [not_or] at hcond
    have hnone := queryLoop_none hkey pairs hflags fun front p back hpairs hname => by
      by_contra hback
      exact hcond.2.1 ⟨hflags, front, p, back, hpairs, hname, by simpa using hback⟩
    rw [hnone] at heq
    exact absurd heq (by simp)
  · rintro (hunnamed | ⟨_, front, p, back, rfl, hname, hback⟩ | ⟨front, p, v, rfl, hname, hv, _⟩)
    · obtain ⟨p, hp, hname⟩ := h
      exact absurd hname (hunnamed p hp)
    · exact queryLoop_flags hkey hname hback hflags
    · exact absurd (hflags p (by simp) hname) (by simp [hv])

/-- The answer to a key without `&` is right exactly in these cases. -/
theorem queryLoop_eq_lookup_iff (hkey : 38 ∉ key) (pairs : List Pair) :
    queryLoop key (render pairs) = lookup key pairs ↔
      (∀ p ∈ pairs, p.name ≠ key) ∨ FlagBehind key pairs ∨ ValueLast key pairs := by
  by_cases hnamed : ∃ p ∈ pairs, p.name = key
  · by_cases hvalued : ∃ p ∈ pairs, p.name = key ∧ p.value ≠ none
    · exact queryLoop_eq_lookup_iff_of_valued hkey hvalued
    · exact queryLoop_eq_lookup_iff_of_flags hkey hnamed (by simpa using hvalued)
  · have hunnamed : ∀ p ∈ pairs, p.name ≠ key := by simpa using hnamed
    have hnone := queryLoop_none hkey pairs (fun r hr heq => absurd heq (hunnamed r hr))
      fun front p back heq hp => absurd hp (hunnamed p (by simp [heq]))
    rw [hnone, lookup_of_unnamed hunnamed]
    exact ⟨fun _ => Or.inl hunnamed, fun _ => rfl⟩

/-- For every query string and every key. -/
theorem requestQuery_iff (req : HttpRequest) (pairs : List Pair) (key : Bytes) :
    requestQuery { req with query := render pairs } key = lookup key pairs ↔
      ¬ Spelled key pairs ∧
        ((∀ p ∈ pairs, p.name ≠ key) ∨ FlagBehind key pairs ∨ ValueLast key pairs) := by
  have hloop : requestQuery { req with query := render pairs } key = queryLoop key (render pairs) := by
    rw [requestQuery]
    split_ifs with h
    · rw [show render pairs = [] from h, queryLoop, if_pos rfl]
    · rfl
  rw [hloop]
  by_cases hkey : 38 ∈ key
  · have hunnamed : ∀ p ∈ pairs, p.name ≠ key := fun p _ heq => (p.name_plain 38 (heq ▸ hkey)).1 rfl
    rw [lookup_of_unnamed hunnamed, queryLoop_eq_none_iff hkey]
    exact ⟨fun h => ⟨h, Or.inl hunnamed⟩, fun h => h.1⟩
  · rw [queryLoop_eq_lookup_iff hkey, and_iff_right (not_spelled_of_plain hkey pairs)]

/-- The pairs of `a=1&b=2`. -/
def samplePairs : List Pair :=
  [⟨[97], some [49], by simp, by simp, by simp⟩, ⟨[98], some [50], by simp, by simp, by simp⟩]

/-- `a=1&b=2` answers `1&b=2` to `a`. -/
theorem requestQuery_samplePairs :
    requestQuery { method := [], path := [], query := render samplePairs, headers := [], body := [] } [97] ≠
      lookup [97] samplePairs := by
  rw [samplePairs, requestQuery, if_neg render_ne_nil, queryLoop_valued rfl]
  decide

end SneppxAlg.Http
