import Mathlib.Data.Nat.Notation
import Mathlib.Tactic.ByContra
import SneppxAlg.Lib.GuardedRun

/-!
# Passes that replace each instruction by a sequence

A straight-line program is a list of instructions, and its run folds a step function over it. A pass
goes through the list and puts a sequence of instructions in the place of each one; it takes choices
from a source that it carries along.

`simulation`: if the sequence relates the states before it to the states after the instruction
whenever a condition holds at that step, then the two runs are related at the end of every program
all of whose steps meet the condition. `prefixes_iff`: where a step that misses the condition is seen
at once, the runs stay together along the whole program if and only if every step meets it.
-/

namespace Lib.Expansion

open Lib.GuardedRun

variable {σ α δ : Type*} (step : σ → α → σ) (expand : α → δ → List α × δ)

/-- The program after the pass, and the choices that are left. -/
def expandAll : List α → δ → List α × δ
  | [], d => ([], d)
  | a :: as, d => ((expand a d).1 ++ (expandAll as (expand a d).2).1, (expandAll as (expand a d).2).2)

/-- A step of the program before the pass, beside the choices that the pass takes there. -/
def stepWith (s : σ × δ) (a : α) : σ × δ := (step s.1 a, (expand a s.2).2)

variable {step expand} {R Q : σ → σ → Prop} {ok : σ × δ → α → Prop} {as : List α}

theorem forall_mem_expandAll {P : α → Prop} (h : ∀ a ∈ as, ∀ d, ∀ b ∈ (expand a d).1, P b) (d : δ) :
    ∀ b ∈ (expandAll expand as d).1, P b := by
  induction as generalizing d with
  | nil => simp [expandAll]
  | cons a as ih =>
    simp only [expandAll, List.mem_append]
    rintro b (hb | hb)
    · exact h a List.mem_cons_self d b hb
    · exact ih (fun c hc => h c (List.mem_cons_of_mem a hc)) _ b hb

/-- What the sequences hold, where the condition on the steps says something about them. -/
theorem forall_mem_of_guarded {P : α → Prop}
    (h : ∀ a ∈ as, ∀ s d, ok (s, d) a → ∀ b ∈ (expand a d).1, P b) {s : σ} {d : δ}
    (hok : Guarded (stepWith step expand) ok (s, d) as) : ∀ b ∈ (expandAll expand as d).1, P b := by
  induction as generalizing s d with
  | nil => simp [expandAll]
  | cons a as ih =>
    simp only [expandAll, List.mem_append]
    rintro b (hb | hb)
    · exact h a List.mem_cons_self s d hok.1 b hb
    · exact ih (fun c hc => h c (List.mem_cons_of_mem a hc)) hok.2 b hb

theorem length_expandAll {c : ℕ} (h : ∀ a d, (expand a d).1.length ≤ c) (d : δ) :
    (expandAll expand as d).1.length ≤ c * as.length := by
  induction as generalizing d with
  | nil => simp [expandAll]
  | cons a as ih =>
    have hhead := h a d
    have htail := ih (expand a d).2
    simp only [expandAll, List.length_append, List.length_cons, Nat.mul_add, Nat.mul_one]
    omega

theorem simulation
    (hstep : ∀ a ∈ as, ∀ s t d, R s t → ok (s, d) a → R (step s a) ((expand a d).1.foldl step t))
    {s t : σ} {d : δ} (hok : Guarded (stepWith step expand) ok (s, d) as) (hst : R s t) :
    R (as.foldl step s) ((expandAll expand as d).1.foldl step t) := by
  induction as generalizing s t d with
  | nil => exact hst
  | cons a as ih =>
    have hhead := hstep a List.mem_cons_self s t d hst hok.1
    simp only [expandAll, List.foldl_cons, List.foldl_append]
    exact ih (fun b hb => hstep b (List.mem_cons_of_mem a hb)) hok.2 hhead

theorem prefixes_iff
    (hstep : ∀ a ∈ as, ∀ s t d, R s t → ok (s, d) a → R (step s a) ((expand a d).1.foldl step t))
    (hmiss : ∀ a ∈ as, ∀ s t d, R s t → ¬ ok (s, d) a →
      ¬ Q (step s a) ((expand a d).1.foldl step t))
    (hRQ : ∀ s t, R s t → Q s t) {s t : σ} {d : δ} (hst : R s t) :
    (∀ bs, bs <+: as → Q (bs.foldl step s) ((expandAll expand bs d).1.foldl step t)) ↔
      Guarded (stepWith step expand) ok (s, d) as := by
  constructor
  · intro h
    induction as generalizing s t d with
    | nil => exact trivial
    | cons a as ih =>
      -- the program of the first instruction alone shows whether it met the condition
      have hok : ok (s, d) a := by
        by_contra hno
        refine hmiss a List.mem_cons_self s t d hst hno ?_
        simpa [expandAll] using h [a] (by simp)
      refine ⟨hok, ih (fun b hb => hstep b (List.mem_cons_of_mem a hb))
        (fun b hb => hmiss b (List.mem_cons_of_mem a hb))
        (hstep a List.mem_cons_self s t d hst hok) ?_⟩
      intro bs hbs
      have := h (a :: bs) (List.cons_prefix_cons.mpr ⟨rfl, hbs⟩)
      simpa [expandAll, List.foldl_append] using this
  · intro h bs hbs
    obtain ⟨cs, rfl⟩ := hbs
    have hsub : ∀ b ∈ bs, b ∈ bs ++ cs := fun b hb => List.mem_append_left cs hb
    exact hRQ _ _ (simulation (fun b hb => hstep b (hsub b hb)) h.of_append hst)

end Lib.Expansion
