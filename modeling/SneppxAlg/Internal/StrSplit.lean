import Mathlib.Algebra.BigOperators.Group.List.Basic
import SneppxAlg.Lib.CString

/-!
# `strutil.c`: splitting and joining strings

`SNEPPX_strsplit` copies the text before each delimiter into a token, and at the end the text after
the last one. `max_tokens` is only the capacity with which the array of tokens starts: the loop
doubles it when it is full, and the text after the last delimiter is left out when the array happens
to be full at the end. So the limit holds, and the tokens join to the string, exactly when the
string has fewer delimiters than the limit and the array that is asked for has room for the tokens
(`splits_iff`).

Strings are lists of bytes without their NUL. The sizes of the blocks are those of the source, with
the wrap-around of the products; storing behind the array of tokens is undefined, which is `none`
here. A failed allocation makes `SNEPPX_strsplit` return 0, which is `some none`.
-/

namespace SneppxAlg.StrSplit

open Lib.CString (CStr)

/-! ## The code -/

/-- The local variables of `SNEPPX_strsplit`. `cells` is the number of pointers that the block
`tokens` has room for, and `tokens` the strings that are in it. -/
structure State where
  tokens : List (List UInt8)
  capacity : ℕ
  cells : ℕ

section Code

variable (grants : ℕ → Bool)

/-- The array is enlarged when it is full. -/
def grow (st : State) : Option State :=
  if st.capacity ≤ st.tokens.length then
    let capacity := st.capacity * 2 % 2 ^ 64
    let bytes := capacity * 8 % 2 ^ 64
    if grants bytes then some { st with capacity := capacity, cells := bytes / 8 } else none
  else some st

/-- A token is copied and stored. -/
def pushToken (st : State) (token : List UInt8) : Option (Option State) :=
  match grow grants st with
  | none => some none
  | some st =>
    if st.cells ≤ st.tokens.length then none
    else if grants (token.length + 1) then some (some { st with tokens := st.tokens ++ [token] })
    else some none

/-- The loop. `current` is the text from `start` to `str`; at the end it is the text from `start`
on. -/
def splitLoop (delimiter : UInt8) : List UInt8 → List UInt8 → State →
    Option (Option (State × List UInt8))
  | [], current, st => some (some (st, current))
  | b :: str, current, st =>
    if b = delimiter then
      match pushToken grants st current with
      | none => none
      | some none => some none
      | some (some st) => splitLoop delimiter str [] st
    else splitLoop delimiter str (current ++ [b]) st

/-- `SNEPPX_strsplit`. -/
def strsplit (str : List UInt8) (delimiter : UInt8) (maxTokens : ℕ) :
    Option (Option (List (List UInt8))) :=
  let capacity := if 0 < maxTokens then maxTokens else 32
  let bytes := capacity * 8 % 2 ^ 64
  if grants bytes then
    match splitLoop grants delimiter str [] ⟨[], capacity, bytes / 8⟩ with
    | none => none
    | some none => some none
    | some (some (st, last)) =>
      if st.tokens.length < st.capacity ∨ maxTokens = 0 then
        (pushToken grants st last).map (Option.map State.tokens)
      else some (some st.tokens)
  else some none

/-- The bytes that the loop of `SNEPPX_strjoin` writes; `none` is a `NULL` token. -/
def joinLoop (delimiter : UInt8) : List (Option (List UInt8)) → List UInt8
  | [] => []
  | none :: tokens => joinLoop delimiter tokens
  | some t :: some t' :: tokens => t ++ delimiter :: joinLoop delimiter (some t' :: tokens)
  | some t :: tokens => t ++ joinLoop delimiter tokens

/-- `SNEPPX_strjoin`; `some none` is `NULL`. -/
def strjoin (tokens : List (Option (List UInt8))) (delimiter : UInt8) :
    Option (Option (List UInt8)) :=
  let n := tokens.length
  let total := (tokens.map fun t => (t.getD []).length).sum + if 1 < n then n - 1 else 0
  let bytes := (total + 1) % 2 ^ 64
  if grants bytes then
    if (joinLoop delimiter tokens).length < bytes then some (some (joinLoop delimiter tokens))
    else none
  else some none

end Code

/-! ## The pieces of a list -/

section Pieces

variable {α : Type*} [DecidableEq α] {d : α}

theorem length_splitOn (l : List α) : (l.splitOn d).length = l.count d + 1 := by
  induction l with
  | nil => simp
  | cons x l ih =>
    rw [List.splitOn_cons_eq_if_modifyHead, List.count_cons]
    split <;> simp [ih]

theorem mem_of_mem_splitOn {l : List α} {t : List α} (ht : t ∈ l.splitOn d) {x : α} (hx : x ∈ t) :
    x ∈ l ∧ x ≠ d := by
  induction l generalizing t with
  | nil =>
    rw [List.splitOn_nil, List.mem_singleton] at ht
    subst ht
    cases hx
  | cons y l ih =>
    rw [List.splitOn_cons_eq_if_modifyHead] at ht
    split at ht
    · rcases List.mem_cons.mp ht with rfl | ht
      · cases hx
      · exact ⟨List.mem_cons_of_mem _ (ih ht hx).1, (ih ht hx).2⟩
    · next hy =>
      obtain ⟨p, ps, hp⟩ := List.exists_cons_of_ne_nil (List.splitOn_ne_nil d l)
      rw [hp, List.modifyHead_cons] at ht
      rcases List.mem_cons.mp ht with rfl | ht
      · rcases List.mem_cons.mp hx with rfl | hx
        · exact ⟨List.mem_cons_self, by simpa using hy⟩
        · have := ih (t := p) (by rw [hp]; exact List.mem_cons_self) hx
          exact ⟨List.mem_cons_of_mem _ this.1, this.2⟩
      · have := ih (t := t) (by rw [hp]; exact List.mem_cons_of_mem _ ht) hx
        exact ⟨List.mem_cons_of_mem _ this.1, this.2⟩

end Pieces

/-! ## Joining -/

theorem joinLoop_map_some (d : UInt8) (ts : List (List UInt8)) :
    joinLoop d (ts.map some) = [d].intercalate ts := by
  induction ts with
  | nil => rfl
  | cons t ts ih =>
    cases ts with
    | nil => simp [joinLoop]
    | cons t' ts =>
      rw [List.map_cons, List.map_cons, joinLoop, ← List.map_cons, ih, List.intercalate_cons_cons]
      simp

theorem length_intercalate (d : UInt8) (ts : List (List UInt8)) :
    ([d].intercalate ts).length = (ts.map List.length).sum + (ts.length - 1) := by
  induction ts with
  | nil => rfl
  | cons t ts ih =>
    cases ts with
    | nil => simp
    | cons t' ts =>
      rw [List.intercalate_cons_cons, List.length_append, List.length_append, ih]
      simp only [List.map_cons, List.sum_cons, List.length_cons, List.length_nil]
      omega

/-- Tokens that are no `NULL` pointers are joined. -/
theorem strjoin_map_some {grants : ℕ → Bool} (hgr : ∀ n < 2 ^ 63, grants n = true)
    {ts : List (List UInt8)} {d : UInt8} (h : ([d].intercalate ts).length + 1 < 2 ^ 63) :
    strjoin grants (ts.map some) d = some (some ([d].intercalate ts)) := by
  have hif : (if 1 < ts.length then ts.length - 1 else 0) = ts.length - 1 := by split <;> omega
  have hsum : (ts.map fun t => ((some t).getD []).length).sum = (ts.map List.length).sum := rfl
  have htotal : ((ts.map some).map fun t => (t.getD []).length).sum +
      (if 1 < (ts.map some).length then (ts.map some).length - 1 else 0) =
        ([d].intercalate ts).length := by
    rw [List.map_map, List.length_map, hif, length_intercalate]
    exact congrArg (· + (ts.length - 1)) hsum
  have hmod : (([d].intercalate ts).length + 1) % 2 ^ 64 = ([d].intercalate ts).length + 1 :=
    Nat.mod_eq_of_lt (by omega)
  simp only [strjoin, htotal, hmod, hgr _ h, if_true, joinLoop_map_some]
  rw [if_pos (by omega)]

/-! ## Storing tokens -/

section Pushes

variable {grants : ℕ → Bool} {st st' : State} {t : List UInt8} {ts : List (List UInt8)}
  {d : UInt8}

/-- Tokens stored one after the other. -/
def pushAll (grants : ℕ → Bool) : List (List UInt8) → State → Option (Option State)
  | [], st => some (some st)
  | t :: ts, st =>
    match pushToken grants st t with
    | none => none
    | some none => some none
    | some (some st) => pushAll grants ts st

/-- **The loop stores the pieces before the last one.** -/
theorem splitLoop_eq {init : List (List UInt8)} {last : List UInt8} (str current : List UInt8)
    (h : (str.splitOn d).modifyHead (current ++ ·) = init ++ [last]) (st : State) :
    splitLoop grants d str current st =
      (pushAll grants init st).map (Option.map fun st => (st, last)) := by
  induction str generalizing current init st with
  | nil =>
    rw [List.splitOn_nil, List.modifyHead_cons, List.append_nil] at h
    obtain ⟨rfl, rfl⟩ : init = [] ∧ current = last := by
      cases init with
      | nil => exact ⟨rfl, by simpa using h⟩
      | cons i init => simp at h
    rfl
  | cons b str ih =>
    rw [List.splitOn_cons_eq_if_modifyHead] at h
    by_cases hb : b = d
    · subst hb
      rw [if_pos (by simp), List.modifyHead_cons, List.append_nil] at h
      cases init with
      | nil => simp at h
      | cons i init =>
        obtain ⟨rfl, htail⟩ := List.cons.inj h
        have hrest : (str.splitOn b).modifyHead ([] ++ ·) = init ++ [last] := by
          rw [show str.splitOn b = init ++ [last] from htail]
          cases init <;> rfl
        rw [splitLoop, if_pos rfl, pushAll]
        cases pushToken grants st current with
        | none => rfl
        | some r =>
          cases r with
          | none => rfl
          | some st' => exact ih [] hrest st'
    · rw [if_neg (by simpa using hb), List.modifyHead_modifyHead] at h
      rw [splitLoop, if_neg hb]
      refine ih (current ++ [b]) ?_ st
      rw [← h]
      congr 1
      funext l
      simp

theorem grow_tokens {g : State} (h : grow grants st = some g) : g.tokens = st.tokens := by
  rw [grow] at h
  split at h
  · dsimp only at h
    split at h
    · obtain rfl := Option.some.inj h
      rfl
    · cases h
  · obtain rfl := Option.some.inj h
    rfl

theorem pushToken_eq_some (h : pushToken grants st t = some (some st')) :
    ∃ g, grow grants st = some g ∧ st.tokens.length < g.cells ∧
      st' = { g with tokens := st.tokens ++ [t] } := by
  rw [pushToken] at h
  cases hg : grow grants st with
  | none => simp [hg] at h
  | some g =>
    simp only [hg, grow_tokens hg] at h
    split at h
    · cases h
    · next hroom =>
      split at h
      · obtain rfl := Option.some.inj (Option.some.inj h)
        exact ⟨g, rfl, not_le.mp hroom, rfl⟩
      · cases h

theorem pushToken_eq {g : State} (hg : grow grants st = some g) (hroom : st.tokens.length < g.cells)
    (ht : grants (t.length + 1) = true) :
    pushToken grants st t = some (some { g with tokens := st.tokens ++ [t] }) := by
  rw [pushToken, hg]
  simp only [grow_tokens hg, ht, if_true]
  rw [if_neg (not_le.mpr hroom)]

theorem pushAll_cons_eq_some (h : pushAll grants (t :: ts) st = some (some st')) :
    ∃ st₁, pushToken grants st t = some (some st₁) ∧ pushAll grants ts st₁ = some (some st') := by
  rw [pushAll] at h
  split at h
  · cases h
  · cases h
  · next st₁ hst₁ => exact ⟨st₁, hst₁, h⟩

/-- The tokens that are stored come after the others. -/
theorem pushAll_tokens (h : pushAll grants ts st = some (some st')) :
    st'.tokens = st.tokens ++ ts := by
  induction ts generalizing st with
  | nil =>
    obtain rfl := Option.some.inj (Option.some.inj h)
    exact (List.append_nil _).symm
  | cons t ts ih =>
    obtain ⟨st₁, hst₁, h⟩ := pushAll_cons_eq_some h
    obtain ⟨g, -, -, rfl⟩ := pushToken_eq_some hst₁
    rw [ih h, List.append_assoc, List.singleton_append]

/-! ### Below the capacity -/

/-- Tokens that fit the capacity are stored if the block has room for them. -/
theorem pushAll_eq (hcap : st.tokens.length + ts.length ≤ st.capacity)
    (hroom : st.tokens.length + ts.length ≤ st.cells)
    (hts : ∀ t ∈ ts, grants (t.length + 1) = true) :
    pushAll grants ts st = some (some { st with tokens := st.tokens ++ ts }) := by
  induction ts generalizing st with
  | nil => simp [pushAll]
  | cons t ts ih =>
    rw [List.length_cons] at hcap hroom
    have hg : grow grants st = some st := if_neg (by omega)
    rw [pushAll, pushToken_eq hg (by omega) (hts t List.mem_cons_self)]
    have hlen : (st.tokens ++ [t]).length + ts.length = st.tokens.length + (ts.length + 1) := by
      simp
      omega
    have hrest : pushAll grants ts { st with tokens := st.tokens ++ [t] } =
        some (some { st with tokens := st.tokens ++ [t] ++ ts }) :=
      ih (hlen.trans_le hcap) (hlen.trans_le hroom) fun t ht => hts t (List.mem_cons_of_mem _ ht)
    rw [List.append_assoc, List.singleton_append] at hrest
    exact hrest

/-- Below the capacity the array does not grow, and what is stored is in the block. -/
theorem pushAll_capacity (hcap : st.tokens.length + ts.length ≤ st.capacity)
    (h : pushAll grants ts st = some (some st')) :
    st'.capacity = st.capacity ∧ (ts ≠ [] → st.tokens.length + ts.length ≤ st.cells) := by
  induction ts generalizing st with
  | nil =>
    obtain rfl := Option.some.inj (Option.some.inj h)
    exact ⟨rfl, fun h => absurd rfl h⟩
  | cons t ts ih =>
    rw [List.length_cons] at hcap ⊢
    obtain ⟨st₁, hst₁, h⟩ := pushAll_cons_eq_some h
    obtain ⟨g, hg, hroom, rfl⟩ := pushToken_eq_some hst₁
    have hg' : grow grants st = some st := if_neg (by omega)
    obtain rfl := Option.some.inj (hg.symm.trans hg')
    obtain ⟨hc, hr⟩ := ih (by simp only [List.length_append, List.length_singleton]; omega) h
    refine ⟨hc, fun _ => ?_⟩
    by_cases hts : ts = []
    · subst hts
      exact hroom
    · have := hr hts
      simp only [List.length_append, List.length_singleton] at this
      omega

/-! ### Doubling -/

/-- Without a limit the capacity starts at 32, and doubles when the array is full. -/
def Doubled (st : State) : Prop :=
  st.cells = st.capacity ∧ st.tokens.length ≤ st.capacity ∧
    ∃ j, st.capacity = 2 ^ (j + 5) ∧ (j = 0 ∨ st.capacity < 2 * st.tokens.length)

theorem grow_doubled (hgr : ∀ n < 2 ^ 63, grants n = true) (hst : Doubled st)
    (hlt : st.tokens.length < 2 ^ 59) :
    ∃ g, grow grants st = some g ∧ st.tokens.length < g.cells ∧
      Doubled { g with tokens := st.tokens ++ [t] } := by
  obtain ⟨hcells, hle, j, hj, hmin⟩ := hst
  have hlen : (st.tokens ++ [t]).length = st.tokens.length + 1 := by simp
  by_cases hfull : st.capacity ≤ st.tokens.length
  · -- The array is full: a power of two below `2 ^ 59` is doubled.
    have hcap : st.capacity = st.tokens.length := le_antisymm hfull hle
    have hmod : st.capacity * 2 % 2 ^ 64 = st.capacity * 2 := Nat.mod_eq_of_lt (by omega)
    have hbytes : st.capacity * 2 * 8 % 2 ^ 64 = st.capacity * 2 * 8 := Nat.mod_eq_of_lt (by omega)
    have hpos : 0 < st.capacity := by rw [hj]; exact Nat.two_pow_pos _
    refine ⟨{ st with capacity := st.capacity * 2, cells := st.capacity * 2 }, ?_, ?_, rfl, ?_,
      j + 1, ?_, .inr ?_⟩
    · rw [grow, if_pos hfull]
      simp only [hmod, hbytes]
      rw [if_pos (hgr _ (by omega)), Nat.mul_div_cancel _ (by norm_num)]
    · show st.tokens.length < st.capacity * 2
      omega
    · show (st.tokens ++ [t]).length ≤ st.capacity * 2
      omega
    · show st.capacity * 2 = 2 ^ (j + 1 + 5)
      rw [hj]
      ring
    · show st.capacity * 2 < 2 * (st.tokens ++ [t]).length
      omega
  · refine ⟨st, if_neg hfull, by omega, hcells, ?_, j, hj, ?_⟩
    · show (st.tokens ++ [t]).length ≤ st.capacity
      omega
    · refine hmin.imp_right fun hlt => ?_
      show st.capacity < 2 * (st.tokens ++ [t]).length
      omega

/-- At `2 ^ 59` tokens the array would be larger than any block. -/
theorem grow_eq_none (hlarge : ∀ n, 2 ^ 63 ≤ n → grants n = false) (hst : Doubled st)
    (hfull : st.tokens.length = 2 ^ 59) : grow grants st = none := by
  obtain ⟨-, hle, j, hj, hmin⟩ := hst
  have hcap : st.capacity = 2 ^ 59 := by
    rw [hfull, hj] at hle
    have hge : 59 ≤ j + 5 := (Nat.pow_le_pow_iff_right (by norm_num)).mp hle
    have hlt := hmin.resolve_left (by omega)
    rw [hfull, hj, show 2 * 2 ^ 59 = 2 ^ 60 by norm_num] at hlt
    have hle' : j + 5 < 60 := (Nat.pow_lt_pow_iff_right (by norm_num)).mp hlt
    rw [hj, show j + 5 = 59 by omega]
  rw [grow, if_pos (by omega), hcap]
  exact if_neg (by rw [hlarge _ (by norm_num)]; simp)

theorem pushAll_doubled (hgr : ∀ n < 2 ^ 63, grants n = true) (hst : Doubled st)
    (hts : ∀ t ∈ ts, grants (t.length + 1) = true)
    (hlen : st.tokens.length + ts.length ≤ 2 ^ 59) :
    ∃ st', pushAll grants ts st = some (some st') ∧ st'.tokens = st.tokens ++ ts := by
  induction ts generalizing st with
  | nil => exact ⟨st, rfl, (List.append_nil _).symm⟩
  | cons t ts ih =>
    rw [List.length_cons] at hlen
    obtain ⟨g, hg, hroom, hdoubled⟩ := grow_doubled (t := t) hgr hst (by omega)
    have hlen' : (st.tokens ++ [t]).length + ts.length ≤ 2 ^ 59 := by
      simp only [List.length_append, List.length_singleton]
      omega
    obtain ⟨st', h, htokens⟩ := ih hdoubled (fun t ht => hts t (List.mem_cons_of_mem _ ht)) hlen'
    refine ⟨st', ?_, ?_⟩
    · rw [pushAll, pushToken_eq hg hroom (hts t List.mem_cons_self)]
      exact h
    · rw [htokens, List.append_assoc, List.singleton_append]

theorem pushAll_eq_none (hgr : ∀ n < 2 ^ 63, grants n = true)
    (hlarge : ∀ n, 2 ^ 63 ≤ n → grants n = false) (hst : Doubled st)
    (hts : ∀ t ∈ ts, grants (t.length + 1) = true) (hle : st.tokens.length ≤ 2 ^ 59)
    (hlen : 2 ^ 59 < st.tokens.length + ts.length) : pushAll grants ts st = some none := by
  induction ts generalizing st with
  | nil => exact absurd hlen (not_lt.mpr hle)
  | cons t ts ih =>
    rw [List.length_cons] at hlen
    rw [pushAll]
    by_cases hfull : st.tokens.length = 2 ^ 59
    · rw [pushToken, grow_eq_none hlarge hst hfull]
    · obtain ⟨g, hg, hroom, hdoubled⟩ := grow_doubled (t := t) hgr hst (by omega)
      rw [pushToken_eq hg hroom (hts t List.mem_cons_self)]
      have hlen' : (st.tokens ++ [t]).length = st.tokens.length + 1 := by simp
      exact ih hdoubled (fun t ht => hts t (List.mem_cons_of_mem _ ht)) (by rw [hlen']; omega)
        (by rw [hlen']; omega)

theorem pushAll_append_singleton (ts : List (List UInt8)) (t : List UInt8) (st : State) :
    pushAll grants (ts ++ [t]) st =
      match pushAll grants ts st with
      | none => none
      | some none => some none
      | some (some st) => pushToken grants st t := by
  induction ts generalizing st with
  | nil =>
    show pushAll grants [t] st = pushToken grants st t
    rw [pushAll]
    cases pushToken grants st t with
    | none => rfl
    | some r => cases r <;> rfl
  | cons t' ts ih =>
    rw [List.cons_append, pushAll, pushAll]
    cases pushToken grants st t' with
    | none => rfl
    | some r =>
      cases r with
      | none => rfl
      | some st => exact ih st

end Pushes

/-! ## Splitting and joining -/

section Results

variable {grants : ℕ → Bool} {s : List UInt8} {d : UInt8} {maxTokens : ℕ}

/-- The tokens join to the string; without a limit none of them has the delimiter in it, and with
one there are at most as many. -/
def Splits (grants : ℕ → Bool) (s : List UInt8) (d : UInt8) (maxTokens : ℕ) : Prop :=
  ∃ tokens, strsplit grants s d maxTokens = some (some tokens) ∧
    strjoin grants (tokens.map some) d = some (some s) ∧
    (maxTokens = 0 → ∀ t ∈ tokens, d ∉ t) ∧ (1 ≤ maxTokens → tokens.length ≤ maxTokens)

/-- The string has fewer delimiters than the limit, and the array of tokens, whose size wraps
around, is a block that has room for the tokens. Without a limit the array is grown until it would
be larger than any block. -/
def Fits (s : List UInt8) (d : UInt8) (maxTokens : ℕ) : Prop :=
  if maxTokens = 0 then s.count d < 2 ^ 59
  else s.count d < maxTokens ∧ maxTokens * 8 % 2 ^ 64 < 2 ^ 63 ∧
    (s.count d + 1) * 8 ≤ maxTokens * 8 % 2 ^ 64

/-- A limit below `2 ^ 60` does not wrap around. -/
theorem fits_iff (hpos : 0 < maxTokens) (hlt : maxTokens < 2 ^ 60) :
    Fits s d maxTokens ↔ s.count d < maxTokens := by
  rw [Fits, if_neg hpos.ne', Nat.mod_eq_of_lt (by omega)]
  omega

/-- All pieces are shorter than the string. -/
theorem length_le_of_mem_splitOn {t : List UInt8} (ht : t ∈ s.splitOn d) : t.length ≤ s.length := by
  have hjoin := congrArg List.length (@List.intercalate_splitOn _ s _ _ d)
  rw [length_intercalate] at hjoin
  have := List.single_le_sum (fun _ _ => Nat.zero_le _) _ (List.mem_map_of_mem (f := List.length) ht)
  omega

theorem exists_splitOn_eq (s : List UInt8) (d : UInt8) : ∃ init last,
    s.splitOn d = init ++ [last] ∧ init.length = s.count d ∧
      ∀ st, splitLoop grants d s [] st =
        (pushAll grants init st).map (Option.map fun st => (st, last)) := by
  obtain ⟨init, last, h⟩ : ∃ init last, s.splitOn d = init ++ [last] :=
    ⟨_, _, (List.dropLast_append_getLast (List.splitOn_ne_nil d s)).symm⟩
  refine ⟨init, last, h, ?_, fun st => splitLoop_eq s [] ?_ st⟩
  · have hlen := length_splitOn (d := d) s
    rw [h, List.length_append, List.length_singleton] at hlen
    omega
  · rw [h]
    cases init <;> rfl

/-- A join that leaves the last piece out is shorter than the string. -/
theorem length_intercalate_init_lt {init : List (List UInt8)} {last : List UInt8}
    (h : s.splitOn d = init ++ [last]) (hpos : 0 < init.length) : ([d].intercalate init).length < s.length := by
  have hs := congrArg List.length (@List.intercalate_splitOn _ s _ _ d)
  rw [h, length_intercalate, List.map_append, List.sum_append, List.length_append] at hs
  rw [length_intercalate]
  simp only [List.map_cons, List.map_nil, List.sum_singleton, List.length_singleton] at hs
  omega

variable (hgr : ∀ n < 2 ^ 63, grants n = true) (hlarge : ∀ n, 2 ^ 63 ≤ n → grants n = false)
  (hs : s.length + 1 < 2 ^ 63)
include hgr hs

/-- There is room for every piece. -/
theorem grants_of_mem_splitOn : ∀ t ∈ s.splitOn d, grants (t.length + 1) = true := by
  intro t ht
  have := length_le_of_mem_splitOn ht
  exact hgr _ (by omega)

theorem strjoin_splitOn : strjoin grants ((s.splitOn d).map some) d = some (some s) := by
  have h := @List.intercalate_splitOn _ s _ _ d
  rw [strjoin_map_some hgr (by rwa [h]), h]

omit hs in
/-- Without a limit all pieces are stored. -/
theorem strsplit_zero : strsplit grants s d 0 =
    (pushAll grants (s.splitOn d) ⟨[], 32, 32⟩).map (Option.map State.tokens) := by
  obtain ⟨init, last, hpieces, -, hloop⟩ := @exists_splitOn_eq grants s d
  have h256 : grants (32 * 8 % 2 ^ 64) = true := hgr _ (by norm_num)
  rw [strsplit, hpieces, pushAll_append_singleton]
  simp only [lt_irrefl, if_false, h256, if_true, hloop]
  cases pushAll grants init ⟨[], 32, 32⟩ with
  | none => rfl
  | some r =>
    cases r with
    | none => rfl
    | some st => exact if_pos (.inr trivial)

include hlarge

theorem splits_zero_iff : Splits grants s d 0 ↔ s.count d < 2 ^ 59 := by
  have hst : Doubled ⟨[], 32, 32⟩ := ⟨rfl, by simp, 0, rfl, .inl rfl⟩
  have hts := grants_of_mem_splitOn (d := d) hgr hs
  have hlen := length_splitOn (d := d) s
  constructor
  · rintro ⟨tokens, hsplit, -⟩
    by_contra hcount
    rw [strsplit_zero hgr, pushAll_eq_none hgr hlarge hst hts (by simp) (by simp; omega)]
      at hsplit
    cases hsplit
  · intro hcount
    obtain ⟨st', hpush, htokens⟩ := pushAll_doubled hgr hst hts (by simp; omega)
    refine ⟨s.splitOn d, ?_, strjoin_splitOn hgr hs, fun _ t ht hd => ?_, fun h => by omega⟩
    · rw [strsplit_zero hgr, hpush]
      exact congrArg (some ∘ some) htokens
    · exact (mem_of_mem_splitOn ht hd).2 rfl

/-- The array that is asked for with a limit. -/
def initial (maxTokens : ℕ) : State := ⟨[], maxTokens, maxTokens * 8 % 2 ^ 64 / 8⟩

omit hgr hs in
/-- An array larger than any block is refused. -/
theorem strsplit_refused (hpos : 0 < maxTokens) (hbytes : 2 ^ 63 ≤ maxTokens * 8 % 2 ^ 64) :
    strsplit grants s d maxTokens = some none := by
  simp only [strsplit, hpos, if_true, hlarge _ hbytes, Bool.false_eq_true, if_false]

omit hlarge hs in
/-- With a limit the last piece is stored only when the array is not full. -/
theorem strsplit_pos {init : List (List UInt8)} {last : List UInt8} (hpos : 0 < maxTokens)
    (hbytes : maxTokens * 8 % 2 ^ 64 < 2 ^ 63)
    (hloop : ∀ st, splitLoop grants d s [] st =
      (pushAll grants init st).map (Option.map fun st => (st, last))) :
    strsplit grants s d maxTokens =
      match pushAll grants init (initial maxTokens) with
      | none => none
      | some none => some none
      | some (some st) =>
        if st.tokens.length < st.capacity then
          (pushToken grants st last).map (Option.map State.tokens)
        else some (some st.tokens) := by
  simp only [strsplit, hpos, if_true, hgr _ hbytes, hloop, hpos.ne', or_false, initial]
  cases pushAll grants init ⟨[], maxTokens, maxTokens * 8 % 2 ^ 64 / 8⟩ with
  | none => rfl
  | some r => cases r <;> rfl

theorem fits_of_splits (hpos : 0 < maxTokens) (h : Splits grants s d maxTokens) :
    s.count d < maxTokens ∧ maxTokens * 8 % 2 ^ 64 < 2 ^ 63 ∧
      (s.count d + 1) * 8 ≤ maxTokens * 8 % 2 ^ 64 := by
  obtain ⟨tokens, hsplit, hjoin, -, hlimit⟩ := h
  have hbytes : maxTokens * 8 % 2 ^ 64 < 2 ^ 63 := by
    by_contra hbytes
    rw [strsplit_refused hlarge hpos (not_lt.mp hbytes)] at hsplit
    cases hsplit
  obtain ⟨init, last, hpieces, hinit, hloop⟩ := @exists_splitOn_eq grants s d
  have hlen := length_splitOn (d := d) s
  have hall := @pushAll_append_singleton grants init last (initial maxTokens)
  have hle := hlimit hpos
  rw [strsplit_pos hgr hpos hbytes hloop] at hsplit
  rw [← hpieces] at hall
  cases hpush : pushAll grants init (initial maxTokens) with
  | none =>
    rw [hpush] at hsplit
    cases hsplit
  | some r =>
    cases r with
    | none =>
      rw [hpush] at hsplit
      cases hsplit
    | some st =>
      rw [hpush] at hsplit hall
      have htokens : st.tokens = init := pushAll_tokens hpush
      by_cases hfull : st.tokens.length < st.capacity
      · -- All pieces are stored, and the array has not grown.
        obtain ⟨r, hr, hsplit⟩ := Option.map_eq_some_iff.mp ((if_pos hfull).symm.trans hsplit)
        obtain ⟨st', rfl, rfl⟩ := Option.map_eq_some_iff.mp hsplit
        have hlast : st'.tokens = s.splitOn d := pushAll_tokens (hall.trans hr)
        rw [hlast, hlen] at hle
        have hcap : (initial maxTokens).tokens.length + (s.splitOn d).length ≤ maxTokens := by
          rw [hlen]
          exact (Nat.zero_add _).trans_le hle
        have hroom := (pushAll_capacity hcap (hall.trans hr)).2 (List.splitOn_ne_nil d s)
        rw [hlen] at hroom
        have hroom' : 0 + (s.count d + 1) ≤ maxTokens * 8 % 2 ^ 64 / 8 := hroom
        omega
      · -- The array is full with the pieces before the last one, which is lost.
        obtain rfl := Option.some.inj (Option.some.inj ((if_neg hfull).symm.trans hsplit))
        rw [htokens] at hle hfull hjoin
        have hfits : (initial maxTokens).tokens.length + init.length ≤
            (initial maxTokens).capacity := (Nat.zero_add _).trans_le hle
        have hcap : st.capacity = maxTokens := (pushAll_capacity hfits hpush).1
        have hshort := length_intercalate_init_lt hpieces (by omega)
        rw [strjoin_map_some hgr (by omega)] at hjoin
        exact absurd (congrArg List.length (Option.some.inj (Option.some.inj hjoin))) hshort.ne

omit hlarge in
theorem splits_of_fits (hpos : 0 < maxTokens) (hcount : s.count d < maxTokens)
    (hbytes : maxTokens * 8 % 2 ^ 64 < 2 ^ 63)
    (hroom : (s.count d + 1) * 8 ≤ maxTokens * 8 % 2 ^ 64) : Splits grants s d maxTokens := by
  obtain ⟨init, last, hpieces, hinit, hloop⟩ := @exists_splitOn_eq grants s d
  have hlen := length_splitOn (d := d) s
  have hts := grants_of_mem_splitOn (d := d) hgr hs
  have hcells : s.count d + 1 ≤ (initial maxTokens).cells := by
    show s.count d + 1 ≤ maxTokens * 8 % 2 ^ 64 / 8
    omega
  have hpush (ts : List (List UInt8)) (hts : ∀ t ∈ ts, grants (t.length + 1) = true)
      (hlen : ts.length ≤ s.count d + 1) : pushAll grants ts (initial maxTokens) =
        some (some { initial maxTokens with tokens := ts }) :=
    pushAll_eq (show 0 + ts.length ≤ maxTokens by omega)
      (show 0 + ts.length ≤ (initial maxTokens).cells by omega) hts
  have hinitPush := hpush init
    (fun t ht => hts t (by rw [hpieces]; exact List.mem_append_left _ ht)) (by omega)
  have hall := @pushAll_append_singleton grants init last (initial maxTokens)
  rw [← hpieces, hpush _ hts hlen.le, hinitPush] at hall
  refine ⟨s.splitOn d, ?_, strjoin_splitOn hgr hs, fun h => absurd h hpos.ne', fun _ => by omega⟩
  rw [strsplit_pos hgr hpos hbytes hloop, hinitPush]
  refine (if_pos (show init.length < maxTokens by omega)).trans ?_
  exact congrArg (Option.map (Option.map State.tokens)) hall.symm

/-- **Splitting gives tokens that join to the string, and keeps to the limit, exactly when the
string has fewer delimiters than the limit** and the array of tokens is a block with room for
them. -/
theorem splits_iff : Splits grants s d maxTokens ↔ Fits s d maxTokens := by
  rw [Fits]
  split
  · next h =>
    subst h
    exact splits_zero_iff hgr hlarge hs
  · next h =>
    have hpos := Nat.pos_of_ne_zero h
    exact ⟨fits_of_splits hgr hlarge hs hpos, fun ⟨h1, h2, h3⟩ => splits_of_fits hgr hs hpos h1 h2 h3⟩

end Results

/-- An allocator that is not exhausted. -/
def ample (n : ℕ) : Bool := decide (n < 2 ^ 63)

/-- `a,b` with two tokens. -/
theorem splits_two : Splits ample [97, 44, 98] 44 2 :=
  (splits_iff (fun _ h => decide_eq_true h) (fun _ h => decide_eq_false (not_lt.mpr h))
    (by norm_num)).mpr ((fits_iff (by norm_num) (by norm_num)).mpr (by decide))

/-- `a,b` with one token: the text after the delimiter is lost. -/
theorem not_splits_one : ¬ Splits ample [97, 44, 98] 44 1 := by
  rintro ⟨tokens, hsplit, hjoin, -⟩
  have hcode : strsplit ample [97, 44, 98] 44 1 = some (some [[97]]) := by decide
  obtain rfl := Option.some.inj (Option.some.inj (hcode.symm.trans hsplit))
  have hcode' : strjoin ample [some [97]] 44 = some (some [97]) := by decide
  cases Option.some.inj (Option.some.inj (hcode'.symm.trans hjoin))

end SneppxAlg.StrSplit
