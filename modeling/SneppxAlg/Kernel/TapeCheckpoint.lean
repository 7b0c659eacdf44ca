import SneppxAlg.Kernel.TapeOps

/-!
# Checkpoints and the backward pass

A program with checkpoints builds the graph of the same program without them (`plain`), except that the
contexts of some variables are dropped (`build_sim`). The passes over the two graphs call the same
kernels for the same variables as long as no context is recomputed that loses something. Three are lost:
`recompute_PowCtx` has no result, so that the exponent gets no gradient; `recompute_RopeCtx` has no
table; and `recompute_ConcatCtx` takes the array of the parents itself, which is freed with the context
and read afterwards.

Main result: `backward_checkpoint`.
-/

namespace SneppxAlg.Autodiff

open Lib

variable {T H M : Type}

/-! ## The recomputed contexts -/

/-- The recomputed context lacks something that the backward function uses. -/
def Ctx.loses (requiresGrad : Ptr → Bool) : Ctx T → Bool
  | .pow _ b _ => requiresGrad b
  | .rope a _ => requiresGrad a
  | .concat _ _ _ _ => true
  | _ => false

theorem sendTo_of_not_requiresGrad {requiresGrad : Ptr → Bool} {p : Ptr} (h : requiresGrad p = false)
    (k : Kernel T) : sendTo requiresGrad p k = [] := by
  cases p with
  | none => rfl
  | some v => simp [sendTo, h]

/-- The saved context of an operation, and the one that is computed from the parents and the parameters
of its variable. -/
theorem recompute_contributions (K : Kernels T H M) (data : Ptr → Option T) (requiresGrad : Ptr → Bool)
    {shape : ℕ → UInt64 → UInt64} {result : T} {op : Op T} {c : Ctx T}
    (hc : op.savedCtx shape result = some c) (hl : c.loses requiresGrad = false) :
    ∃ fn, op.recomputeFn = some fn ∧
      (fn.ctx op.parents op.params : Ctx T).freesParents = false ∧
      contributions K data requiresGrad (fn.ctx op.parents op.params)
        = contributions K data requiresGrad c := by
  cases op with
  | zeroGrad op operands => cases hc
  | concat vars dim =>
    obtain rfl := Option.some.inj hc
    cases hl
  | pow a b =>
    obtain rfl := Option.some.inj hc
    refine ⟨.pow, rfl, rfl, ?_⟩
    have hb : requiresGrad (some b) = false := hl
    simp [RecomputeFn.ctx, Op.parents, contributions, sendTo_of_not_requiresGrad hb]
  | rope a cosTable =>
    obtain rfl := Option.some.inj hc
    refine ⟨.rope, rfl, rfl, ?_⟩
    have ha : requiresGrad (some a) = false := hl
    simp [RecomputeFn.ctx, contributions, sendTo_of_not_requiresGrad ha]
  | dropout a rate seed | layerNorm a gamma beta eps | batchNorm a gamma beta mean var eps =>
    obtain rfl := Option.some.inj hc
    refine ⟨_, rfl, rfl, ?_⟩
    simp [RecomputeFn.ctx, Op.parents, Op.params, contributions]
  | _ =>
    obtain rfl := Option.some.inj hc
    exact ⟨_, rfl, rfl, rfl⟩

theorem freesParents_savedCtx {shape : ℕ → UInt64 → UInt64} {result : T} {op : Op T} {c : Ctx T}
    (hc : op.savedCtx shape result = some c) : c.freesParents = false := by
  cases op with
  | zeroGrad op operands => cases hc
  | _ =>
    obtain rfl := Option.some.inj hc
    rfl

/-! ## The two graphs -/

/-- A variable as it was made. -/
def Built (y : Variable (Ctx T)) : Prop :=
  y = newVariable ∨ ∃ shape result op, y = Op.gradVariable shape result op

/-- The same variable in the graph with checkpoints and in the one without. -/
structure NodeSim (x y : Node T H) : Prop where
  data : x.data = y.data
  grad : x.grad = y.grad
  requiresGrad : x.requiresGrad = y.requiresGrad
  var : x.var = y.var ∨ x.var = y.var.checkpoint
  built : Built y.var
  fresh : y.var.backwardFn = true → y.grad = none

structure Sim (g g' : Graph T H) : Prop where
  nodes : List.Forall₂ NodeSim g.nodes g'.nodes
  tape : g.tape = g'.tape
  checkpointing : g'.checkpointing = false
  noGradDepth : g.noGradDepth = g'.noGradDepth

theorem checkpoint_checkpoint (y : Variable (Ctx T)) : y.checkpoint.checkpoint = y.checkpoint := by
  unfold Variable.checkpoint
  by_cases h : (y.backwardCtx.isSome && y.recomputeCtx.isSome) = true
  · simp [h]
  · simp [h]

theorem NodeSim.checkpoint {x y : Node T H} (h : NodeSim x y) :
    NodeSim { x with var := x.var.checkpoint } y := by
  refine { h with var := Or.inr ?_ }
  rcases h.var with hv | hv
  · exact congrArg Variable.checkpoint hv
  · exact (congrArg Variable.checkpoint hv).trans (checkpoint_checkpoint y.var)

theorem forall₂_modify {α β : Type} {R : α → β → Prop} {f : α → α} (hf : ∀ x y, R x y → R (f x) y)
    {l : List α} {l' : List β} (h : List.Forall₂ R l l') (v : ℕ) : List.Forall₂ R (l.modify v f) l' := by
  induction h generalizing v with
  | nil => simp
  | cons hxy hrest ih =>
    cases v with
    | zero => exact .cons (hf _ _ hxy) hrest
    | succ v => exact .cons hxy (ih v)

theorem forall₂_getElem? {α β : Type} {R : α → β → Prop} {l : List α} {l' : List β}
    (h : List.Forall₂ R l l') (v : ℕ) : Option.Rel R l[v]? l'[v]? := by
  induction h generalizing v with
  | nil => exact .none
  | cons hxy _ ih =>
    cases v with
    | zero => exact .some hxy
    | succ v => exact ih v

section Lookup

variable {g g' : Graph T H}

/-- The two lookups of a variable. -/
theorem Sim.lookup (h : Sim g g') (v : ℕ) :
    (g.nodes[v]? = none ∧ g'.nodes[v]? = none) ∨
      ∃ x y, g.nodes[v]? = some x ∧ g'.nodes[v]? = some y ∧ NodeSim x y := by
  have hrel := forall₂_getElem? h.nodes v
  cases hx : g.nodes[v]? with
  | none =>
    rw [hx] at hrel
    cases hy : g'.nodes[v]? with
    | none => exact .inl ⟨rfl, rfl⟩
    | some y =>
      rw [hy] at hrel
      cases hrel
  | some x =>
    rw [hx] at hrel
    cases hy : g'.nodes[v]? with
    | none =>
      rw [hy] at hrel
      cases hrel
    | some y =>
      rw [hy] at hrel
      cases hrel with
      | some hxy => exact .inr ⟨x, y, rfl, rfl, hxy⟩

theorem Sim.length (h : Sim g g') : g.nodes.length = g'.nodes.length := h.nodes.length_eq

theorem Sim.noGrad (h : Sim g g') : g.noGrad = g'.noGrad := by
  simp only [Graph.noGrad, h.noGradDepth]

theorem Sim.dataEq (h : Sim g g') : g.data = g'.data := by
  funext p
  cases p with
  | none => rfl
  | some v =>
    simp only [Graph.data, Option.bind_some]
    rcases h.lookup v with ⟨hx, hy⟩ | ⟨x, y, hx, hy, hxy⟩
    · rw [hx, hy]
    · rw [hx, hy, Option.map_some, Option.map_some, hxy.data]

theorem Sim.requiresGradEq (h : Sim g g') : g.requiresGrad = g'.requiresGrad := by
  funext p
  cases p with
  | none => rfl
  | some v =>
    simp only [Graph.requiresGrad, Option.bind_some]
    rcases h.lookup v with ⟨hx, hy⟩ | ⟨x, y, hx, hy, hxy⟩
    · rw [hx, hy]
    · rw [hx, hy, Option.map_some, Option.map_some, hxy.requiresGrad]

theorem Sim.gradsEq (h : Sim g g') : g.grads = g'.grads := by
  funext v
  simp only [Graph.grads]
  rcases h.lookup v with ⟨hx, hy⟩ | ⟨x, y, hx, hy, hxy⟩
  · rw [hx, hy]
  · rw [hx, hy, Option.bind_some, Option.bind_some, hxy.grad]

theorem Sim.validEq (h : Sim g g') : g.valid = g'.valid := by
  funext p
  simp only [Graph.valid, h.length]

theorem Sim.vars (h : Sim g g') (v : ℕ) :
    (g.vars v = g'.vars v ∨ g.vars v = (g'.vars v).checkpoint) ∧ Built (g'.vars v) ∧
      ((g'.vars v).backwardFn = true → g'.grads v = none) := by
  simp only [Graph.vars, Graph.grads]
  rcases h.lookup v with ⟨hx, hy⟩ | ⟨x, y, hx, hy, hxy⟩
  · rw [hx, hy]
    exact ⟨.inl rfl, .inl rfl, fun _ => rfl⟩
  · rw [hx, hy]
    exact ⟨hxy.var, hxy.built, hxy.fresh⟩

end Lookup

/-! ## Building -/

theorem tapeRecord_sim {g g' : Graph T H} (h : Sim g g') (v : ℕ) :
    Sim (g.tapeRecord v) (g'.tapeRecord v) := by
  have htape := h.tape
  unfold Graph.tapeRecord
  by_cases hv : v ∈ g.tape.vars
  · rw [dif_pos hv, dif_pos (htape ▸ hv)]
    exact h
  · rw [dif_neg hv, dif_neg (htape ▸ hv)]
    refine ⟨?_, ?_, h.checkpointing, h.noGradDepth⟩
    · simp only [h.checkpointing, Bool.false_eq_true, if_false]
      by_cases hc : g.checkpointing = true
      · rw [if_pos hc]
        exact forall₂_modify (fun _ _ hxy => hxy.checkpoint) h.nodes v
      · rw [if_neg hc]
        exact h.nodes
    · simp only [htape]

theorem push_sim {g g' : Graph T H} (h : Sim g g') {x y : Node T H} (hxy : NodeSim x y) :
    Sim { g with nodes := g.nodes ++ [x] } { g' with nodes := g'.nodes ++ [y] } :=
  { h with nodes := List.rel_append h.nodes (.cons hxy .nil) }

theorem newNode_sim {g g' : Graph T H} (h : Sim g g') (K : Kernels T H M) (op : Op T) (result : T) :
    NodeSim (g.newNode K op result) (g'.newNode K op result) := by
  have heq : g.newNode K op result = g'.newNode K op result := by
    simp only [Graph.newNode, h.requiresGradEq, h.noGrad, h.dataEq]
  refine ⟨by rw [heq], by rw [heq], by rw [heq], .inl (by rw [heq]), ?_, fun _ => rfl⟩
  simp only [Graph.newNode]
  by_cases hrg : (op.gradOperands.any g'.requiresGrad && !g'.noGrad) = true
  · rw [if_pos hrg]
    exact .inr ⟨_, _, _, rfl⟩
  · rw [if_neg hrg]
    exact .inl rfl

theorem apply_sim {g g' : Graph T H} (h : Sim g g') (K : Kernels T H M) (op : Op T) (taped : Bool) :
    Sim (g.apply K op taped) (g'.apply K op taped) := by
  simp only [Graph.apply, h.validEq, h.dataEq, h.noGrad, h.length]
  by_cases hop : (op.accepted && op.operands.all g'.valid) = true
  · rw [if_pos hop, if_pos hop]
    cases K.forward op (op.operands.map g'.data) with
    | none => exact h
    | some result =>
      have hpush := push_sim h (newNode_sim h K op result)
      dsimp only
      by_cases ht : (taped && (op.alwaysRecords || !g'.noGrad)) = true
      · rw [if_pos ht, if_pos ht]
        exact tapeRecord_sim hpush _
      · rw [if_neg ht, if_neg ht]
        exact hpush
  · rw [if_neg hop, if_neg hop]
    exact h

/-- A command keeps the graphs alike; the graph without checkpoints skips the checkpoints. -/
theorem exec_sim {g g' : Graph T H} (h : Sim g g') (K : Kernels T H M) (c : Cmd T H) :
    Sim (g.exec K c) (if c.isCheckpoint then g' else g'.exec K c) := by
  cases c with
  | create data grad rg =>
    refine push_sim h ⟨rfl, rfl, ?_, .inl rfl, .inl rfl, ?_⟩
    · simp only [h.noGrad]
    · rintro ⟨⟩
  | apply op taped => exact apply_sim h K op taped
  | record v =>
    simp only [Cmd.isCheckpoint, Bool.false_eq_true, if_false, Graph.exec, h.length]
    by_cases hv : v < g'.nodes.length
    · rw [if_pos hv, if_pos hv]
      exact tapeRecord_sim h v
    · rw [if_neg hv, if_neg hv]
      exact h
  | checkpointBegin => exact { h with }
  | checkpointEnd => exact { h with }
  | noGradEnter => exact { h with noGradDepth := congrArg (· + 1) h.noGradDepth }
  | noGradExit => exact { h with noGradDepth := congrArg (· - 1) h.noGradDepth }

theorem build_sim (K : Kernels T H M) (prog : List (Cmd T H)) :
    Sim (build K prog) (build K (plain prog)) := by
  have hfold : ∀ (prog : List (Cmd T H)) {g g' : Graph T H}, Sim g g' →
      Sim (prog.foldl (Graph.exec K) g) ((plain prog).foldl (Graph.exec K) g') := by
    intro prog
    induction prog with
    | nil => exact fun h => h
    | cons c prog ih =>
      intro g g' h
      have hc := exec_sim h K c
      by_cases hck : c.isCheckpoint = true
      · rw [if_pos hck] at hc
        have hplain : plain (c :: prog) = plain prog := by simp [plain, hck]
        rw [hplain]
        exact ih hc
      · rw [if_neg hck] at hc
        have hplain : plain (c :: prog) = c :: plain prog := by simp [plain, hck]
        rw [hplain]
        exact ih hc
  exact hfold prog ⟨.nil, rfl, rfl, rfl⟩

/-! ## One round of the pass -/

/-- The variable `v` is on the tape, and its backward function adds to the gradient of `p`. -/
def Graph.Sends (K : Kernels T H M) (g : Graph T H) (v p : ℕ) : Prop :=
  v ∈ g.tape.vars ∧ ∃ c, (g.vars v).backwardCtx = some c ∧
    p ∈ (contributions K g.data g.requiresGrad c).map Prod.fst

/-- A gradient of the loss reaches `v`. -/
def Graph.Reaches (K : Kernels T H M) (g : Graph T H) (loss v : ℕ) : Prop :=
  Relation.ReflTransGen (g.Sends K) loss v

theorem send_frame (K : Kernels T H M) (out : H) (s : Session T H M) (w : ℕ → Variable (Ctx T))
    (calls : List ℕ) (q : ℕ × Kernel T) :
    Session.send K out { s with vars := w, calls := calls } q
      = { Session.send K out s q with vars := w, calls := calls } := by
  simp only [Session.send, Session.gradAccum]
  cases (K.backward q.2 out s.mem).1 with
  | none => rfl
  | some x =>
    dsimp only
    cases s.grads q.1 with
    | none => rfl
    | some y => rfl

theorem foldl_send_frame (K : Kernels T H M) (out : H) (l : List (ℕ × Kernel T)) (s : Session T H M)
    (w : ℕ → Variable (Ctx T)) (calls : List ℕ) :
    l.foldl (Session.send K out) { s with vars := w, calls := calls }
      = { l.foldl (Session.send K out) s with vars := w, calls := calls } := by
  induction l generalizing s with
  | nil => rfl
  | cons q l ih => rw [List.foldl_cons, List.foldl_cons, send_frame, ih]

theorem foldl_send_vars (K : Kernels T H M) (out : H) (l : List (ℕ × Kernel T)) (s : Session T H M) :
    (l.foldl (Session.send K out) s).vars = s.vars :=
  congrArg (fun t => t.vars) (foldl_send_frame K out l s s.vars s.calls)

theorem foldl_send_calls (K : Kernels T H M) (out : H) (l : List (ℕ × Kernel T)) (s : Session T H M) :
    (l.foldl (Session.send K out) s).calls = s.calls :=
  congrArg (fun t => t.calls) (foldl_send_frame K out l s s.vars s.calls)

/-- Only the variables that are sent to get a gradient. -/
theorem foldl_send_grads (K : Kernels T H M) (out : H) (l : List (ℕ × Kernel T)) {s : Session T H M}
    {p : ℕ} (h : (l.foldl (Session.send K out) s).grads p ≠ none) :
    s.grads p ≠ none ∨ p ∈ l.map Prod.fst := by
  induction l generalizing s with
  | nil => exact .inl h
  | cons q l ih =>
    rw [List.map_cons, List.mem_cons]
    rcases ih h with hs | hl
    · by_cases hp : p = q.1
      · exact .inr (.inl hp)
      · left
        intro hnone
        apply hs
        simp only [Session.send, Session.gradAccum]
        cases (K.backward q.2 out s.mem).1 with
        | none => exact hnone
        | some x =>
          dsimp only
          cases s.grads q.1 with
          | none => exact (Function.update_of_ne hp _ _).trans hnone
          | some y => exact hnone
    · exact .inr (.inr hl)

theorem pending_eq_some {s : Session T H M} {v : ℕ} {c : Ctx T} {out : H} :
    s.pending v = some (c, out) ↔
      (s.vars v).backwardFn = true ∧ s.grads v = some out ∧ (s.vars v).context = some c := by
  simp only [Heap.pending]
  constructor
  · intro h
    by_cases hf : (s.vars v).backwardFn = true
    · rw [if_pos hf] at h
      obtain ⟨g, hg, h⟩ := Option.bind_eq_some_iff.1 h
      obtain ⟨c', hc, he⟩ := Option.map_eq_some_iff.1 h
      obtain ⟨rfl, rfl⟩ := Prod.mk.inj he
      exact ⟨hf, hg, hc⟩
    · rw [if_neg hf] at h
      cases h
  · rintro ⟨hf, hg, hc⟩
    rw [if_pos hf, hg, hc]
    rfl

/-- The contexts of a variable in the two graphs: the pass calls the same kernels, and frees no array of
parents. -/
theorem context_sim {g g' : Graph T H} (h : Sim g g') (K : Kernels T H M) {v : ℕ}
    (hl : ∀ c, (g'.vars v).backwardCtx = some c → (g.vars v).checkpointed = true →
      c.loses g'.requiresGrad = false) (hf : (g'.vars v).backwardFn = true) :
    ∃ c d, (g'.vars v).backwardCtx = some c ∧ (g'.vars v).context = some c ∧
      (g.vars v).context = some d ∧ c.freesParents = false ∧ d.freesParents = false ∧
      contributions K g.data g.requiresGrad d = contributions K g'.data g'.requiresGrad c := by
  rw [h.dataEq, h.requiresGradEq]
  obtain ⟨hvar, hbuilt, -⟩ := h.vars v
  rcases hbuilt with hnew | ⟨shape, result, op, hop⟩
  · rw [hnew] at hf
    cases hf
  · rw [hop] at hf hl hvar ⊢
    obtain ⟨c, hc⟩ := Option.isSome_iff_exists.1 hf
    have hctx : (Op.gradVariable shape result op).context = some c := by
      simp only [Variable.context, Op.gradVariable, hc]
    rcases hvar with hv | hv
    · refine ⟨c, c, hc, hctx, ?_, freesParents_savedCtx hc, freesParents_savedCtx hc, rfl⟩
      rw [hv]
      exact hctx
    · -- the context was dropped, where there is a function to compute it again
      by_cases hfn : op.recomputeFn.isSome = true
      · have hck : (g.vars v).checkpointed = true := by
          rw [hv]
          simp [Variable.checkpoint, Op.gradVariable, hc, hfn]
        obtain ⟨fn, hfn', hfree, hcontr⟩ :=
          recompute_contributions K g'.data g'.requiresGrad hc (hl c hc hck)
        refine ⟨c, fn.ctx op.parents op.params, hc, hctx, ?_, freesParents_savedCtx hc, hfree, hcontr⟩
        rw [hv]
        simp [Variable.context, Variable.checkpoint, Op.gradVariable, hc, hfn']
      · refine ⟨c, c, hc, hctx, ?_, freesParents_savedCtx hc, freesParents_savedCtx hc, rfl⟩
        rw [hv]
        simp [Variable.context, Variable.checkpoint, Op.gradVariable, hc, hfn]

theorem backwardFn_eq {g g' : Graph T H} (h : Sim g g') (v : ℕ) :
    (g.vars v).backwardFn = (g'.vars v).backwardFn := by
  rcases (h.vars v).1 with hv | hv
  · rw [hv]
  · rw [hv, Variable.checkpoint]
    split <;> rfl

theorem parents_eq {g g' : Graph T H} (h : Sim g g') (v : ℕ) :
    (g.vars v).parents = (g'.vars v).parents := by
  rcases (h.vars v).1 with hv | hv
  · rw [hv]
  · rw [hv, Variable.checkpoint]
    split <;> rfl

/-- The passes over the two graphs, where the variables `rest` are still to come. -/
structure Passing (K : Kernels T H M) (g g' : Graph T H) (loss : ℕ) (rest : List ℕ)
    (s t : Session T H M) : Prop where
  grads : s.grads = t.grads
  mem : s.mem = t.mem
  left : ∀ u ∈ rest, s.vars u = g.vars u
  right : ∀ u ∈ rest, t.vars u = g'.vars u
  parents : ∀ u, (s.vars u).parents = (g'.vars u).parents ∧ (t.vars u).parents = (g'.vars u).parents
  reached : ∀ u, t.grads u ≠ none → g'.grads u ≠ none ∨ g'.Reaches K loss u

/-- Where a variable is called, the sessions after the call. -/
theorem step_called {K : Kernels T H M} {g : Graph T H} {s : Session T H M} {v : ℕ} {c : Ctx T} {out : H}
    (hf : (s.vars v).backwardFn = true) (ho : s.grads v = some out) (hc : (s.vars v).context = some c)
    (hfree : c.freesParents = false) :
    s.step K g v = some
      { (contributions K g.data g.requiresGrad c).foldl (Session.send K out) s with
        vars := Function.update s.vars v { s.vars v with backwardCtx := none }
        calls := s.calls ++ [v] } := by
  have hpend : s.pending v = some (c, out) := pending_eq_some.2 ⟨hf, ho, hc⟩
  simp only [Session.step, hpend, hfree, Bool.false_and, Bool.false_eq_true, if_false, foldl_send_vars,
    foldl_send_calls]

theorem step_passed {K : Kernels T H M} {g : Graph T H} {s : Session T H M} {v : ℕ}
    (h : (s.vars v).backwardFn = false ∨ s.grads v = none) : s.step K g v = some s := by
  have hpend : s.pending v = none := by
    rcases h with h | h
    · simp [Heap.pending, h]
    · simp [Heap.pending, h]
  simp only [Session.step, hpend]

/-- The gradients that a round leaves do not depend on the variables. -/
theorem foldl_send_congr (K : Kernels T H M) (out : H) (l : List (ℕ × Kernel T)) {s t : Session T H M}
    (hg : s.grads = t.grads) (hm : s.mem = t.mem) :
    (l.foldl (Session.send K out) s).grads = (l.foldl (Session.send K out) t).grads ∧
      (l.foldl (Session.send K out) s).mem = (l.foldl (Session.send K out) t).mem := by
  have hs : s = { t with vars := s.vars, calls := s.calls } := by
    obtain ⟨⟨sv, sg, sc⟩, sm⟩ := s
    obtain ⟨⟨tv, tg, tc⟩, tm⟩ := t
    cases hg
    cases hm
    rfl
  rw [hs, foldl_send_frame]
  exact ⟨rfl, rfl⟩

theorem step_passing {K : Kernels T H M} {g g' : Graph T H} (h : Sim g g') {loss u : ℕ} {rest : List ℕ}
    (hu : u ∉ rest) (hut : u ∈ g'.tape.vars) {s t : Session T H M}
    (hst : Passing K g g' loss (u :: rest) s t)
    (hl : g'.Reaches K loss u → ∀ c, (g'.vars u).backwardCtx = some c →
      (g.vars u).checkpointed = true → c.loses g'.requiresGrad = false) :
    ∃ s' t', s.step K g u = some s' ∧ t.step K g' u = some t' ∧ Passing K g g' loss rest s' t' := by
  have hsu := hst.left u List.mem_cons_self
  have htu := hst.right u List.mem_cons_self
  by_cases hcall : (g'.vars u).backwardFn = true ∧ t.grads u ≠ none
  · obtain ⟨hf, hgrad⟩ := hcall
    have hreach : g'.Reaches K loss u :=
      (hst.reached u hgrad).resolve_left fun hne => hne ((h.vars u).2.2 hf)
    obtain ⟨out, ho⟩ := Option.ne_none_iff_exists'.1 hgrad
    obtain ⟨c, d, hc, hctx, hdtx, hcf, hdf, hcontr⟩ := context_sim h K (hl hreach) hf
    have hs := step_called (K := K) (g := g) (s := s) (by rw [hsu, backwardFn_eq h, hf])
      (by rw [hst.grads, ho]) (by rw [hsu, hdtx]) hdf
    have ht := step_called (K := K) (g := g') (s := t) (by rw [htu, hf]) ho (by rw [htu, hctx]) hcf
    have hcongr := foldl_send_congr K out (contributions K g'.data g'.requiresGrad c) hst.grads hst.mem
    rw [hcontr] at hs
    have hne : ∀ w ∈ rest, w ≠ u := fun w hw he => hu (he ▸ hw)
    refine ⟨_, _, hs, ht, hcongr.1, hcongr.2, fun w hw => ?_, fun w hw => ?_, fun w => ?_,
      fun w hw => ?_⟩
    · exact (Function.update_of_ne (hne w hw) _ _).trans (hst.left w (List.mem_cons_of_mem _ hw))
    · exact (Function.update_of_ne (hne w hw) _ _).trans (hst.right w (List.mem_cons_of_mem _ hw))
    · by_cases hw : w = u
      · subst hw
        simpa using hst.parents w
      · simpa [Function.update_of_ne hw] using hst.parents w
    · rcases foldl_send_grads K out _ hw with hold | hsent
      · exact hst.reached w hold
      · exact .inr (hreach.tail ⟨hut, c, hc, hsent⟩)
  · have hskip : (g'.vars u).backwardFn = false ∨ t.grads u = none := by
      by_cases hf : (g'.vars u).backwardFn = true
      · exact .inr (not_not.1 fun hne => hcall ⟨hf, hne⟩)
      · exact .inl (Bool.not_eq_true _ ▸ hf)
    refine ⟨s, t, step_passed ?_, step_passed ?_, hst.grads, hst.mem,
      fun w hw => hst.left w (List.mem_cons_of_mem _ hw),
      fun w hw => hst.right w (List.mem_cons_of_mem _ hw), hst.parents, hst.reached⟩
    · rwa [hsu, backwardFn_eq h, hst.grads]
    · rwa [htu]

theorem loop_passing {K : Kernels T H M} {g g' : Graph T H} (h : Sim g g') {loss : ℕ}
    (hl : ∀ u, g'.Reaches K loss u → ∀ c, (g'.vars u).backwardCtx = some c →
      (g.vars u).checkpointed = true → c.loses g'.requiresGrad = false) {rest : List ℕ}
    (hnodup : rest.Nodup) (htape : ∀ u ∈ rest, u ∈ g'.tape.vars) {s t : Session T H M}
    (hst : Passing K g g' loss rest s t) :
    ∃ s' t', rest.foldlM (Session.step K g) s = some s' ∧ rest.foldlM (Session.step K g') t = some t' ∧
      Passing K g g' loss [] s' t' := by
  induction rest generalizing s t with
  | nil => exact ⟨s, t, rfl, rfl, hst⟩
  | cons u rest ih =>
    obtain ⟨hu, hrest⟩ := List.nodup_cons.1 hnodup
    obtain ⟨s₁, t₁, hs₁, ht₁, hst₁⟩ := step_passing h hu (htape u List.mem_cons_self) hst (hl u)
    obtain ⟨s', t', hs, ht, hst'⟩ := ih hrest (fun w hw => htape w (List.mem_cons_of_mem _ hw)) hst₁
    refine ⟨s', t', ?_, ?_, hst'⟩
    · rw [List.foldlM_cons, hs₁]
      exact hs
    · rw [List.foldlM_cons, ht₁]
      exact ht

/-! ## The whole pass -/

theorem topologicalSort_congr {C : Type} (tape : Tape) {vars vars' : ℕ → Variable C}
    (h : ∀ v, (vars v).parents = (vars' v).parents) :
    topologicalSort tape vars = topologicalSort tape vars' := by
  have hparents : parentIndices tape vars = parentIndices tape vars' := by
    funext i
    unfold parentIndices
    cases tape.vars[i]? with
    | none => rfl
    | some v => simp only [h v]
  rw [topologicalSort, topologicalSort, hparents]

theorem topologicalSort_nodup {C : Type} (tape : Tape) (vars : ℕ → Variable C) :
    (topologicalSort tape vars).Nodup := by
  apply List.Nodup.filterMap _ (DepthFirst.sort_nodup _ _ _)
  intro i j v hi hj
  obtain ⟨hi', hiv⟩ := List.getElem?_eq_some_iff.1 hi
  obtain ⟨hj', hjv⟩ := List.getElem?_eq_some_iff.1 hj
  exact (tape.nodup.getElem_inj_iff).1 (hiv.trans hjv.symm)

theorem mem_tape_of_mem_sort {C : Type} {tape : Tape} {vars : ℕ → Variable C} {v : ℕ}
    (h : v ∈ topologicalSort tape vars) : v ∈ tape.vars := by
  obtain ⟨i, -, hi⟩ := List.mem_filterMap.1 h
  exact List.mem_of_getElem? hi

/-- The pass over the graph with checkpoints ends, with the gradients of the pass over the graph without,
and with the parents in place. -/
def SameBackward (K : Kernels T H M) (prog : List (Cmd T H)) (mem : M) (loss : ℕ) : Prop :=
  ∃ s t, (build K prog).backward K mem loss = some s ∧
    (build K (plain prog)).backward K mem loss = some t ∧ s.grads = t.grads ∧ s.mem = t.mem ∧
    ∀ v, (s.vars v).parents = ((build K (plain prog)).vars v).parents

/-- No variable that a gradient reaches was recorded during a checkpoint with a context that loses
something. -/
def KeepsContexts (K : Kernels T H M) (prog : List (Cmd T H)) (loss : ℕ) : Prop :=
  ∀ v c, (build K (plain prog)).Reaches K loss v → ((build K (plain prog)).vars v).backwardCtx = some c →
    ((build K prog).vars v).checkpointed = true → c.loses (build K (plain prog)).requiresGrad = false

/-- A program that keeps its contexts has the same gradients with its checkpoints as without them. -/
theorem backward_checkpoint (K : Kernels T H M) (prog : List (Cmd T H)) (mem : M) (loss : ℕ)
    (hkeep : KeepsContexts K prog loss) : SameBackward K prog mem loss := by
  have h := build_sim K prog
  unfold SameBackward Graph.backward
  rcases h.lookup loss with ⟨hx, hy⟩ | ⟨x, y, hx, hy, hxy⟩
  · rw [hx, hy]
    exact ⟨_, _, rfl, rfl, h.gradsEq, rfl, parents_eq h⟩
  · rw [hx, hy]
    have hsort : topologicalSort (build K prog).tape (build K prog).vars
        = topologicalSort (build K (plain prog)).tape (build K (plain prog)).vars := by
      rw [h.tape]
      exact topologicalSort_congr _ (parents_eq h)
    dsimp only
    rw [hsort]
    have hnodup := List.nodup_reverse.2
      (topologicalSort_nodup (build K (plain prog)).tape (build K (plain prog)).vars)
    have hstart : Passing K (build K prog) (build K (plain prog)) loss
        (topologicalSort (build K (plain prog)).tape (build K (plain prog)).vars).reverse
        ((build K prog).start K mem loss x) ((build K (plain prog)).start K mem loss y) := by
      refine ⟨?_, ?_, fun _ _ => rfl, fun _ _ => rfl, fun u => ⟨parents_eq h u, rfl⟩, fun u hu => ?_⟩
      · simp only [Graph.start, backwardStart, h.gradsEq, hxy.data]
      · simp only [Graph.start, hxy.data]
      · by_cases hul : u = loss
        · subst hul
          exact .inr .refl
        · exact .inl fun hnone => hu ((Function.update_of_ne hul _ _).trans hnone)
    obtain ⟨s, t, hs, ht, hst⟩ := loop_passing h (fun u hr c hc hck => hkeep u c hr hc hck) hnodup
      (fun u hu => mem_tape_of_mem_sort (List.mem_reverse.1 hu)) hstart
    exact ⟨s, t, hs, ht, hst.grads, hst.mem, fun v => (hst.parents v).1⟩

/-! ## Tensors of one element -/

/-- The forward functions of some operations on tensors of the shape `[1]`. -/
def scalarForward : Op ℤ → List (Option ℤ) → Option ℤ
  | .binary .add _ _, [some a, some b] => some (a + b)
  | .binary .mul _ _, [some a, some b] => some (a * b)
  | .pow _ _, [some a, some b] => some (a ^ b.toNat)
  | .concat _ _, [some a] => some a
  | _, _ => none

def scalarBackward : Kernel ℤ → ℤ → Option ℤ
  | .binary .add _ _ _, out => some out
  | .binary .mul 0 _ (some b), out => some (b * out)
  | .binary .mul 1 (some a) _, out => some (a * out)
  | .powBase (some a) (some b), out => some (out * (b * a ^ (b - 1).toNat))
  | .narrow _ _ _, out => some out
  | _, _ => none

/-- A handle is a place in the store. -/
def scalarKernels : Kernels ℤ ℕ (List ℤ) where
  forward := scalarForward
  shape _ _ := 1
  ones _ mem := (mem.length, mem ++ [1])
  backward k out mem :=
    match scalarBackward k (mem.getD out 0) with
    | none => (none, mem)
    | some x => (some mem.length, mem ++ [x])
  add y x mem := mem.set y (mem.getD y 0 + mem.getD x 0)

/-- `(3 * 4) ^ 2 + 3`, where the product and the power are checkpointed and the exponent requires no
gradient. -/
def powProgram : List (Cmd ℤ ℕ) :=
  [.create 3 none true, .create 4 none true, .create 2 none false, .checkpointBegin,
    .apply (.binary .mul 0 1) true, .apply (.pow 3 2) true, .checkpointEnd,
    .apply (.binary .add 4 0) true]

/-- The first variable gets `1 + 2 * 12 * 4`. -/
theorem backward_checkpoint_pow :
    ∃ s, (build scalarKernels powProgram).backward scalarKernels [] 5 = some s ∧
      (s.grads 0).map (s.mem.getD · 0) = some 97 ∧ (s.vars 4).parents = [some 3, some 2] := by
  have hkeep : KeepsContexts scalarKernels powProgram 5 := by
    intro v c _ hc _
    have hall : ∀ v < 6, ((build scalarKernels (plain powProgram)).vars v).backwardCtx.all
        (fun c => !c.loses (build scalarKernels (plain powProgram)).requiresGrad) = true := by
      decide +kernel
    by_cases hv : v < 6
    · have := hall v hv
      rw [hc] at this
      simpa using this
    · have hlen : (build scalarKernels (plain powProgram)).nodes.length = 6 := by decide +kernel
      have hnone : (build scalarKernels (plain powProgram)).nodes[v]? = none :=
        List.getElem?_eq_none (by rw [hlen]; exact not_lt.1 hv)
      rw [Graph.vars, hnone] at hc
      cases hc
  obtain ⟨s, t, hs, ht, hg, hm, hp⟩ := backward_checkpoint scalarKernels powProgram [] 5 hkeep
  refine ⟨s, hs, ?_, ?_⟩
  · have hval : ((build scalarKernels (plain powProgram)).backward scalarKernels [] 5).map
        (fun t => (t.grads 0).map (t.mem.getD · 0)) = some (some 97) := by decide +kernel
    rw [ht] at hval
    rw [hg, hm]
    exact Option.some.inj hval
  · rw [hp]
    decide +kernel

/-- A concatenation in a checkpoint: the array of its parents is freed with the context, and read
afterwards. -/
def concatProgram : List (Cmd ℤ ℕ) :=
  [.create 3 none true, .checkpointBegin, .apply (.concat [0] 0) true, .checkpointEnd]

theorem not_sameBackward_concat : ¬SameBackward scalarKernels concatProgram [] 1 := by
  rintro ⟨s, -, hs, -⟩
  have hnone : ((build scalarKernels concatProgram).backward scalarKernels [] 1).isNone = true := by
    decide +kernel
  rw [hs] at hnone
  cases hnone

end SneppxAlg.Autodiff
