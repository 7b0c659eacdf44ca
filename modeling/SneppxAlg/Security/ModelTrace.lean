import SneppxAlg.Lib.BreadthFirst
import SneppxAlg.Lib.Shuffle
import SneppxAlg.Security.ModelChecking

/-!
# The search for a trace

`SNEPPX_model_find_trace` of `security/formal/model_checking.c`: a breadth-first search, then the way back
along the links into the array of the caller, and the array reversed. The search finds a shortest path. The
way back stops when the array is full, and then it is the start of the path that is missing and not its end,
and the length is returned as if the trace were complete (`findTrace_correct_iff`).
-/

namespace SneppxAlg.ModelChecking

open Lib.BreadthFirst

/-- `SNEPPX_model_find_trace`. `none` stands for an index beyond the arrays, `some none` for the return of -1,
and `some (some l)` for the length of `l` with `l` in the array. -/
def findTrace (m : FormalModel) (source target : ℕ) (maxLen : ℤ) : Option (Option (List ℕ)) :=
  if maxLen ≤ 0 then some none
  else if maxStates ≤ source then none
  else
    (find (pruneTargets m) maxStates target maxStates (start source)).map fun found =>
      found.map fun s => Lib.Shuffle.reverseInPlace (traceBack s.parent maxLen.toNat (some target))

/-! ## What it should return -/

/-- A transition of some entry of `x`. -/
def Transition (m : FormalModel) (x y : ℕ) : Prop := y ∈ m.targets x

/-- A shortest trace, if there is one. The call may fail when none fits the array. -/
def TraceCorrect (m : FormalModel) (source target : ℕ) (maxLen : ℤ) : Prop :=
  ∃ r, findTrace m source target maxLen = some r ∧
    (∀ l, r = some l → 0 < l.length ∧ IsShortest (Transition m) source target l) ∧
    (r = none → ∀ l, IsPath (Transition m) source target l → maxLen < l.length)

/-! ## What it returns -/

section

variable {m : FormalModel} {source target : ℕ} {maxLen : ℤ}

theorem pruneTargets_eq (h : ∀ s ∈ m.states, ∀ y ∈ s.nextStates, y < maxStates) (x : ℕ) :
    pruneTargets m x = some (m.targets x) := by
  refine if_pos (List.all_eq_true.mpr fun y hy => decide_eq_true ?_)
  obtain ⟨s, hs, hy⟩ := mem_targets.mp hy
  exact h s (List.mem_filter.mp hs).1 y hy

theorem edge_eq (h : ∀ s ∈ m.states, ∀ y ∈ s.nextStates, y < maxStates) :
    Lib.Worklist.Edge (pruneTargets m) = Transition m := by
  funext x y
  rw [Lib.Worklist.Edge, pruneTargets_eq h]
  simp [Transition]

variable (target) in
theorem find_model (h : ∀ s ∈ m.states, ∀ y ∈ s.nextStates, y < maxStates) (hsource : source < maxStates) :
    ∃ r, find (pruneTargets m) maxStates target maxStates (start source) = some r ∧
      Found (pruneTargets m) (Finset.range maxStates) source target r := by
  have hcard : (Finset.range maxStates).card ≤ maxStates := (Finset.card_range _).le
  have hclosed : ∀ x ∈ Finset.range maxStates, ∃ ys, pruneTargets m x = some ys ∧
      ∀ y ∈ ys, y ∈ Finset.range maxStates := by
    intro x _
    refine ⟨_, pruneTargets_eq h x, fun y hy => ?_⟩
    obtain ⟨s, hs, hy⟩ := mem_targets.mp hy
    exact Finset.mem_range.mpr (h s (List.mem_filter.mp hs).1 y hy)
  have hinv : Inv (pruneTargets m) (Finset.range maxStates) source (start source) fun _ => 0 :=
    start_inv (Finset.mem_range.mpr hsource)
  have hnot : ∀ z, (start source).visited z = true → z ∉ (start source).queue → z ≠ target := by
    intro z hz hmem
    have hne : z ≠ source := by simpa [start] using hmem
    simp [start, hne] at hz
  obtain ⟨r, hr⟩ := find_total target hcard hclosed hinv (hcard.trans (Nat.le_add_right _ _))
  refine ⟨r, hr, find_spec hcard (fun x hx ys hys y hy => ?_) hinv hnot hr⟩
  obtain ⟨ys', hys', hall⟩ := hclosed x hx
  rw [hys] at hys'
  exact hall y (Option.some.inj hys' ▸ hy)

variable (target) in
/-- The trace is as long as the array at most, and it is a shortest one if that fits. -/
theorem findTrace_cases (h : ∀ s ∈ m.states, ∀ y ∈ s.nextStates, y < maxStates) (hlen : 0 < maxLen)
    (hsource : source < maxStates) :
    (findTrace m source target maxLen = some none ∧ ∀ l, ¬ IsPath (Transition m) source target l) ∨
    ∃ l, findTrace m source target maxLen = some (some l) ∧ 0 < l.length ∧ (l.length : ℤ) ≤ maxLen ∧
      ∃ l', IsShortest (Transition m) source target l' ∧
        ((l'.length : ℤ) ≤ maxLen → IsShortest (Transition m) source target l) := by
  obtain ⟨r, hr, hfound⟩ := find_model target h hsource
  rw [findTrace, if_neg (by omega), if_neg (by omega), hr]
  cases r with
  | none =>
    rw [Found, Lib.Worklist.Reach, edge_eq h] at hfound
    exact .inl ⟨rfl, fun l hl => hfound hl.reach⟩
  | some t =>
    obtain ⟨d, rest, ht, hqueue⟩ := hfound
    have hd := Nat.lt_succ_self (d target)
    have hlen' := (ht.isPath_traceBack (ht.queue_visited target (hqueue ▸ List.mem_cons_self)) hd).2
    have hle := length_traceBack_le t.parent maxLen.toNat (some target)
    right
    simp only [Option.map_some, Lib.Shuffle.reverseInPlace_eq]
    refine ⟨_, rfl, ?_, ?_, _, edge_eq h ▸ ht.isShortest hqueue hd, fun hfits => ?_⟩
    · rw [List.length_reverse]
      exact length_traceBack_pos _ (by omega) _
    · rw [List.length_reverse]
      omega
    · rw [List.length_reverse, hlen'] at hfits
      exact edge_eq h ▸ ht.isShortest hqueue (by omega)

/-- A trace is right if there is a place in the array for a shortest one. -/
theorem findTrace_correct_iff (h : ∀ s ∈ m.states, ∀ y ∈ s.nextStates, y < maxStates) :
    TraceCorrect m source target maxLen ↔
      maxLen ≤ 0 ∨ (source < maxStates ∧
        ∀ l, IsShortest (Transition m) source target l → (l.length : ℤ) ≤ maxLen) := by
  by_cases hlen : maxLen ≤ 0
  · refine ⟨fun _ => .inl hlen, fun _ => ⟨none, if_pos hlen, by simp, fun _ l hl => ?_⟩⟩
    exact hlen.trans_lt (by exact_mod_cast hl.length_pos)
  · rw [or_iff_right hlen]
    by_cases hsource : source < maxStates
    · rcases findTrace_cases target h (not_le.mp hlen) hsource with
        ⟨hfind, hno⟩ | ⟨l, hfind, hpos, hle, l', hl', hfits⟩
      · exact iff_of_true ⟨none, hfind, by simp, fun _ l hl => (hno l hl).elim⟩
          ⟨hsource, fun l hl => (hno l hl.1).elim⟩
      · constructor
        · rintro ⟨r, hr, hsome, -⟩
          rw [hfind] at hr
          obtain rfl := Option.some.inj hr
          refine ⟨hsource, fun k hk => ?_⟩
          have hkl : k.length ≤ l.length := hk.2 l (hsome l rfl).2.1
          omega
        · rintro ⟨-, hall⟩
          exact ⟨some l, hfind, fun k hk => Option.some.inj hk ▸ ⟨hpos, hfits (hall l' hl')⟩, by simp⟩
    · refine iff_of_false ?_ fun hcond => hsource hcond.1
      rintro ⟨r, hr, -⟩
      rw [findTrace, if_neg hlen, if_pos (not_lt.mp hsource)] at hr
      simp at hr

end

theorem findTrace_correct_iff_cycle : TraceCorrect (build cycleOps) 0 1 2 := by
  refine (findTrace_correct_iff (by decide)).mpr (.inr ⟨by decide, fun l hl => ?_⟩)
  have hpath : IsPath (Transition (build cycleOps)) 0 1 [0, 1] :=
    ⟨List.isChain_pair.mpr (by decide : 1 ∈ (build cycleOps).targets 0), rfl, rfl⟩
  exact Int.ofNat_le.mpr (hl.2 _ hpath)

/-- In an array with one place the start of the path is missing. -/
theorem not_traceCorrect_short : ¬ TraceCorrect (build cycleOps) 0 1 1 := by
  rintro ⟨r, hr, hsome, -⟩
  have hfind : findTrace (build cycleOps) 0 1 1 = some (some [1]) := by rfl
  rw [hfind] at hr
  have hhead := (hsome [1] (Option.some.inj hr).symm).2.1.2.1
  simp at hhead

end SneppxAlg.ModelChecking
