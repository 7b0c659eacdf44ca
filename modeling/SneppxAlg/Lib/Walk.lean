import Mathlib.Data.List.Basic

/-!
# Walks in a tree

A place in a tree is the list of the names from the root to it. A walk stays where it is, goes up, or goes
down to a name; from the root it cannot go up.

Going down and then up again comes to nothing, so a walk first goes up some number of times and then down
(`Course`, `walk_eq`). It ends below the place that it starts from if it goes down the names that it has
gone up (`prefix_walk_iff`).
-/

namespace Lib.Walk

variable {α : Type*}

inductive Move (α : Type*)
  | stay
  | up
  | down (name : α)

def go (place : List α) : Move α → List α
  | .stay => place
  | .up => place.dropLast
  | .down name => place ++ [name]

def walk (place : List α) (moves : List (Move α)) : List α := moves.foldl go place

/-- How many times a walk goes up, and the names that it then goes down. -/
structure Course (α : Type*) where
  up : ℕ
  down : List α

def Course.go (c : Course α) : Move α → Course α
  | .stay => c
  | .up => if c.down = [] then ⟨c.up + 1, []⟩ else ⟨c.up, c.down.dropLast⟩
  | .down name => ⟨c.up, c.down ++ [name]⟩

def course (moves : List (Move α)) : Course α := moves.foldl Course.go ⟨0, []⟩

theorem walk_append (place : List α) (moves moves' : List (Move α)) :
    walk place (moves ++ moves') = walk (walk place moves) moves' :=
  List.foldl_append

@[simp] theorem walk_stay (place : List α) (moves : List (Move α)) :
    walk place (.stay :: moves) = walk place moves := rfl

def Course.apply (c : Course α) (place : List α) : List α := place.take (place.length - c.up) ++ c.down

theorem Course.go_apply (c : Course α) (place : List α) (m : Move α) :
    Walk.go (c.apply place) m = (c.go m).apply place := by
  cases m with
  | stay => rfl
  | down name => simp [Walk.go, Course.go, apply]
  | up =>
    by_cases hdown : c.down = []
    · have hlast : (place.take (place.length - c.up)).dropLast = place.take (place.length - (c.up + 1)) := by
        rw [List.dropLast_eq_take, List.take_take, List.length_take]
        congr 1
        omega
      simpa [Walk.go, Course.go, apply, hdown] using hlast
    · simp [Walk.go, Course.go, apply, hdown, List.dropLast_append_of_ne_nil]

theorem walk_eq (place : List α) (moves : List (Move α)) : walk place moves = (course moves).apply place := by
  have hrun : ∀ c : Course α, moves.foldl go (c.apply place) = (moves.foldl Course.go c).apply place := by
    induction moves with
    | nil => exact fun _ => rfl
    | cons m moves ih =>
      intro c
      rw [List.foldl_cons, List.foldl_cons, Course.go_apply, ih]
  have hstart : (⟨0, []⟩ : Course α).apply place = place := by simp [Course.apply]
  rw [walk, course, ← hrun, hstart]

theorem walk_root (moves : List (Move α)) : walk [] moves = (course moves).down := by
  simp [walk_eq, Course.apply]

theorem prefix_walk_iff (place : List α) (moves : List (Move α)) :
    place <+: walk place moves ↔
      place.drop (place.length - (course moves).up) <+: (course moves).down := by
  have hsplit := List.take_append_drop (place.length - (course moves).up) place
  rw [walk_eq, Course.apply]
  nth_rewrite 1 [← hsplit]
  exact List.prefix_append_right_inj _

end Lib.Walk
