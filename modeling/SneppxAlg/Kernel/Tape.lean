import SneppxAlg.Lib.DepthFirst

/-!
# `tape.c`: the tape of the automatic differentiation

A tape lists the variables in the order in which they were recorded. It owns them, and
`SNEPPX_tape_destroy` destroys every entry: no variable is recorded twice (`Tape.nodup`). A variable
refers to its parents, the inputs of the operation that made it; some of them may be null or not on the
tape. Variables are named by their addresses.

The backward pass sorts the tape so that parents come before their children, and calls the backward
functions from the end. A backward function reads the context of its variable, which is freed after the
call. Where the context was dropped by a checkpoint it is computed again. The context that
`recompute_ctx` builds depends on the parents and the parameters of the variable only, so that it is a
field of the variable here. The reference counts of the variables, which only `tape_backward` touches,
are left out. Allocations succeed.
-/

namespace SneppxAlg.Autodiff

open Lib

/-- `SNEPPXVariable`: `none` stands for a null pointer. -/
structure Variable (C : Type) where
  parents : List (Option ℕ)
  backwardFn : Bool
  backwardCtx : Option C
  checkpointed : Bool
  recomputeCtx : Option C

structure Tape where
  vars : List ℕ
  nodup : vars.Nodup

/-! ## `tape_topological_sort` -/

/-- The places on the tape of the parents of the variable at place `i`; null parents and parents that
are not on the tape are passed over. -/
def parentIndices {C : Type} (tape : Tape) (vars : ℕ → Variable C) (i : ℕ) : List ℕ :=
  match tape.vars[i]? with
  | none => []
  | some v => (vars v).parents.filterMap fun p => p.bind tape.vars.idxOf?

/-- The bound of `loop_guard`. -/
def loopGuard : ℕ := 1000000

/-- `tape_topological_sort`. -/
def topologicalSort {C : Type} (tape : Tape) (vars : ℕ → Variable C) : List ℕ :=
  (DepthFirst.sort (parentIndices tape vars) loopGuard (List.range tape.vars.length)).filterMap
    fun i => tape.vars[i]?

/-! ## `SNEPPX_tape_backward` -/

/-- The gradients of the variables, null at first. -/
abbrev Grads (M : ℕ → Type) : Type := (v : ℕ) → Option (M v)

/-- `backward_fn` of each variable, on a context, the gradient of the variable, and all gradients. -/
abbrev Backward (M : ℕ → Type) (C : Type) : Type := (v : ℕ) → C → M v → Grads M → Grads M

/-- The variables, their gradients, and the variables whose `backward_fn` was called. -/
structure Heap (M : ℕ → Type) (C : Type) where
  vars : ℕ → Variable C
  grads : Grads M
  calls : List ℕ

/-- The context that `backward_fn` is called with: the one of the variable, or a new one where a
checkpoint has dropped it. -/
def Variable.context {C : Type} (x : Variable C) : Option C :=
  match x.backwardCtx with
  | some c => some c
  | none => if x.checkpointed then x.recomputeCtx else none

/-- The call for one variable: its context and its gradient, if `backward_fn` is called. -/
def Heap.pending {M : ℕ → Type} {C : Type} (s : Heap M C) (v : ℕ) : Option (C × M v) :=
  if (s.vars v).backwardFn then
    (s.grads v).bind fun g => (s.vars v).context.map fun c => (c, g)
  else none

/-- One round of the loop of `tape_backward`. -/
def backwardStep {M : ℕ → Type} {C : Type} (call : Backward M C) (s : Heap M C) (v : ℕ) : Heap M C :=
  match s.pending v with
  | none => s
  | some (c, g) =>
    { vars := Function.update s.vars v { s.vars v with backwardCtx := none }
      grads := call v c g s.grads
      calls := s.calls ++ [v] }

/-- The state in which the loop starts: `seed` is the tensor of ones. -/
def backwardStart {M : ℕ → Type} {C : Type} (vars : ℕ → Variable C) (grads : Grads M) (loss : ℕ)
    (seed : M loss) : Heap M C :=
  { vars := vars, grads := Function.update grads loss (some seed), calls := [] }

/-- `SNEPPX_tape_backward`. -/
def tapeBackward {M : ℕ → Type} {C : Type} (call : Backward M C) (tape : Tape) (vars : ℕ → Variable C)
    (grads : Grads M) (loss : ℕ) (seed : M loss) : Heap M C :=
  (topologicalSort tape vars).reverse.foldl (backwardStep call) (backwardStart vars grads loss seed)

/-! ## The accumulation of gradients -/

/-- `grad_accum`, on gradients of one shape. -/
def gradAccum {M : ℕ → Type} [∀ v, Add (M v)] (grads : Grads M) (p : ℕ) (x : M p) : Grads M :=
  Function.update grads p (some (match grads p with
    | some y => y + x
    | none => x))

end SneppxAlg.Autodiff
