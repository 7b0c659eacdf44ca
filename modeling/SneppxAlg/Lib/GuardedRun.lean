import Mathlib.Init

/-!
# Runs whose steps meet a condition

A system is a step function over states. A run is `Guarded` if each of its steps meets a condition
on the state in which it is taken. An invariant that is kept by the steps that meet the condition
holds in the state at the end of every guarded run (`Guarded.invariant`), and so in every state on
the way (`Guarded.of_append`).
-/

namespace Lib.GuardedRun

variable {σ α : Type*} {step : σ → α → σ} {ok : σ → α → Prop} {s : σ}

/-- Every step meets the condition in the state in which it is taken. -/
def Guarded (step : σ → α → σ) (ok : σ → α → Prop) : σ → List α → Prop
  | _, [] => True
  | s, a :: as => ok s a ∧ Guarded step ok (step s a) as

theorem guarded_append {as bs : List α} :
    Guarded step ok s (as ++ bs) ↔
      Guarded step ok s as ∧ Guarded step ok (as.foldl step s) bs := by
  induction as generalizing s with
  | nil => simp [Guarded]
  | cons a as ih => simp [Guarded, ih, and_assoc]

theorem Guarded.of_append {as bs : List α} (h : Guarded step ok s (as ++ bs)) :
    Guarded step ok s as :=
  (guarded_append.mp h).1

theorem Guarded.invariant {Inv : σ → Prop} {as : List α} (h : Guarded step ok s as)
    (hstep : ∀ s a, Inv s → ok s a → Inv (step s a)) (hs : Inv s) : Inv (as.foldl step s) := by
  induction as generalizing s with
  | nil => exact hs
  | cons a as ih => exact ih h.2 (hstep s a hs h.1)

/-- Two conditions that agree where an invariant holds guard the same runs. -/
theorem guarded_congr {ok' : σ → α → Prop} {Inv : σ → Prop} {as : List α}
    (hstep : ∀ s a, Inv s → Inv (step s a)) (hok : ∀ s a, Inv s → (ok s a ↔ ok' s a))
    (hs : Inv s) : Guarded step ok s as ↔ Guarded step ok' s as := by
  induction as generalizing s with
  | nil => exact Iff.rfl
  | cons a as ih => exact and_congr (hok s a hs) (ih (hstep s a hs))

end Lib.GuardedRun
