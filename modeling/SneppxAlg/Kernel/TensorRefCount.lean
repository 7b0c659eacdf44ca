import SneppxAlg.Kernel.TensorEngine

/-!
# The reference counts of the storages

A program creates tensors, makes views and contiguous copies of them, retains storages and destroys
each tensor at most once. Its tensors are numbered in the order of their creation.

**Balance.** The count of a storage is the number of the live tensors on it, and a storage without
tensors is gone. `create` and every view operation add one tensor and one reference, and `destroy`
takes one of each away.

**Where it breaks.** `SNEPPX_tensor_contiguous` of a contiguous tensor retains the storage and then
makes a view, which retains it again. From there on the storage has more references than tensors, and
no operation takes the surplus away: the storage is never released. A bare `SNEPPX_storage_retain` has
the same effect.

Main result: `run_balanced_iff`.
-/

namespace SneppxAlg.TensorEngine

/-! ## Programs -/

/-- A heap and the tensors created so far, `none` after `destroy`. -/
structure World where
  heap : Heap
  tensors : List (Option Tensor)

/-- No storage and no tensor. -/
def World.empty (fresh : ℕ → ℕ → UInt8) : World :=
  { heap := { storages := fun _ => none, next := 0, fresh := fresh }, tensors := [] }

/-- The calls of a program; tensors are named by their numbers. -/
inductive Call where
  | create (shape : List UInt64) (dtype : Dtype)
  | view (i : ℕ) (op : ViewOp)
  | contiguous (i : ℕ)
  | retain (i : ℕ)
  | destroy (i : ℕ)
deriving DecidableEq

/-- The live tensor `i`. -/
def World.tensor (w : World) (i : ℕ) : Option Tensor := w.tensors[i]?.join

/-- A call that makes a tensor, or returns a null pointer. -/
def World.push (w : World) : Outcome (Heap × Tensor) → Option World
  | .fault => none
  | .null => some w
  | .ok (h, t) => some { heap := h, tensors := w.tensors ++ [some t] }

/-- One call; a call on a tensor that is not live, or with undefined behaviour, is `none`. -/
def World.step (w : World) : Call → Option World
  | .create shape dtype => w.push (.ok (tensorCreate w.heap shape dtype))
  | .view i op => (w.tensor i).bind fun t => w.push (op.apply w.heap t)
  | .contiguous i => (w.tensor i).bind fun t => w.push (tensorContiguous w.heap t)
  | .retain i => (w.tensor i).bind fun t =>
      (storageRetain w.heap t.storage).map fun h => { w with heap := h }
  | .destroy i => (w.tensor i).bind fun t =>
      (tensorDestroy w.heap t).map fun h => { heap := h, tensors := w.tensors.set i none }

/-- A program. -/
def World.run (w : World) : List Call → Option World
  | [] => some w
  | c :: calls => (w.step c).bind fun w => w.run calls

/-! ## Balance -/

def Heap.counts (h : Heap) (s : ℕ) : Option ℤ := (h.storages s).map Storage.refCount

/-- The live tensors on storage `s`. -/
def World.live (w : World) (s : ℕ) : ℕ := w.tensors.countP fun t => t.map Tensor.storage = some s

/-- The count of a storage with `n` tensors: a storage without tensors is gone. -/
def countOf (n : ℕ) : Option ℤ := if n = 0 then none else some n

/-- Every count is the number of the live tensors. -/
def World.Balanced (w : World) : Prop := ∀ s, w.heap.counts s = countOf (w.live s)

/-- The call adds as many references as tensors: it is neither a bare `storage_retain` nor
`contiguous` of a tensor that is contiguous. -/
def World.Exact (w : World) : Call → Prop
  | .retain _ => False
  | .contiguous i => ∀ t, w.tensor i = some t → isContiguous t = false
  | _ => True

/-- Every call of a program is exact in the state it is made in. -/
def World.AllExact (w : World) : List Call → Prop
  | [] => True
  | c :: calls => w.Exact c ∧ ∀ w', w.step c = some w' → w'.AllExact calls

/-! ## What the operations do to the counts -/

/-- New addresses have no storage. -/
def Heap.Fresh (h : Heap) : Prop := ∀ s, h.next ≤ s → h.storages s = none

/-- One more reference to `s`, which may be a new storage. -/
def Heap.Gains (h h' : Heap) (s : ℕ) : Prop :=
  h'.Fresh ∧ h'.counts = Function.update h.counts s (some ((h.counts s).getD 0 + 1))

theorem counts_eq_none {h : Heap} {s : ℕ} : h.counts s = none ↔ h.storages s = none := by
  simp [Heap.counts]

theorem counts_update (h : Heap) (s : ℕ) (st : Option Storage) (n : ℕ) (f : ℕ → ℕ → UInt8) :
    Heap.counts { storages := Function.update h.storages s st, next := n, fresh := f }
      = Function.update h.counts s (st.map Storage.refCount) := by
  funext x
  by_cases hx : x = s
  · simp [Heap.counts, hx]
  · simp [Heap.counts, Function.update_of_ne hx]

/-- An update below the next address leaves the new addresses alone. -/
theorem fresh_update {h : Heap} (hf : h.Fresh) {s : ℕ} (hs : s < h.next) (st : Option Storage) :
    Heap.Fresh { h with storages := Function.update h.storages s st } := by
  intro x hx
  have hne : x ≠ s := by
    dsimp only at hx
    omega
  simp only [Function.update_of_ne hne]
  exact hf x hx

theorem lt_next {h : Heap} (hf : h.Fresh) {s : ℕ} {st : Storage} (hs : h.storages s = some st) :
    s < h.next := by
  by_contra hlt
  rw [hf s (Nat.le_of_not_lt hlt)] at hs
  cases hs

theorem storageRetain_gains {h h' : Heap} (hf : h.Fresh) {s : ℕ} (he : storageRetain h s = some h') :
    h.Gains h' s := by
  obtain ⟨st, hst, rfl⟩ := Option.map_eq_some_iff.1 he
  refine ⟨fresh_update hf (lt_next hf hst) _, ?_⟩
  have hc : h.counts s = some st.refCount := by simp [Heap.counts, hst]
  rw [counts_update, hc]
  rfl

theorem storageCreate_gains {h : Heap} (hf : h.Fresh) (n : UInt64) :
    h.Gains (storageCreate h n).2 (storageCreate h n).1 := by
  constructor
  · intro x hx
    have hne : x ≠ h.next := by
      simp only [storageCreate] at hx
      omega
    simp only [storageCreate, Function.update_of_ne hne]
    exact hf x (le_trans (Nat.le_succ _) hx)
  · have hc : h.counts h.next = none := counts_eq_none.2 (hf _ le_rfl)
    simp only [storageCreate, counts_update, hc]
    rfl

theorem tensorCreate_gains {h : Heap} (hf : h.Fresh) (shape : List UInt64) (dtype : Dtype) :
    h.Gains (tensorCreate h shape dtype).1 (tensorCreate h shape dtype).2.storage :=
  storageCreate_gains hf _

theorem copyData_counts {h h' : Heap} {dst src : Tensor} {n : ℕ} (hf : h.Fresh)
    (he : copyData h dst src n = some h') : h'.Fresh ∧ h'.counts = h.counts := by
  obtain ⟨sd, hsd, he⟩ := Option.bind_eq_some_iff.1 he
  obtain ⟨ss, hss, he⟩ := Option.bind_eq_some_iff.1 he
  dsimp only at he
  split at he
  · obtain rfl := Option.some.inj he
    refine ⟨fresh_update hf (lt_next hf hsd) _, ?_⟩
    rw [counts_update]
    funext x
    by_cases hx : x = dst.storage
    · simp [hx, Heap.counts, hsd]
    · simp [Function.update_of_ne hx]
  · cases he

theorem gains_of_counts {h h₁ h₂ : Heap} {s : ℕ} (hg : h.Gains h₁ s) (hf : h₂.Fresh)
    (hc : h₂.counts = h₁.counts) : h.Gains h₂ s :=
  ⟨hf, hc.trans hg.2⟩

theorem create_copy_gains {h h' : Heap} {src t : Tensor} {shape : List UInt64} {n : ℕ} (hf : h.Fresh)
    (he : (Outcome.ofOption (copyData (tensorCreate h shape src.dtype).1
        (tensorCreate h shape src.dtype).2 src n)).bind
        (fun h₁ => .ok (h₁, (tensorCreate h shape src.dtype).2)) = .ok (h', t)) :
    h.Gains h' t.storage := by
  have hg := tensorCreate_gains hf shape src.dtype
  revert he
  cases hc : copyData (tensorCreate h shape src.dtype).1 (tensorCreate h shape src.dtype).2 src n with
  | none => intro he; cases he
  | some h₁ =>
    intro he
    obtain ⟨rfl, rfl⟩ := Prod.mk.inj (Outcome.ok.inj he)
    obtain ⟨hf₁, hcounts⟩ := copyData_counts hg.1 hc
    exact gains_of_counts hg hf₁ hcounts

theorem asStrided_gains {h h' : Heap} {src t : Tensor} {v : View} (hf : h.Fresh)
    (he : asStrided h src v = .ok (h', t)) : h.Gains h' t.storage ∧ t.storage = src.storage := by
  revert he
  unfold asStrided
  cases hr : storageRetain h src.storage with
  | none => intro he; cases he
  | some h₁ =>
    intro he
    obtain ⟨rfl, rfl⟩ := Prod.mk.inj (Outcome.ok.inj he)
    exact ⟨storageRetain_gains hf hr, rfl⟩

theorem view_gains {h h' : Heap} {src t : Tensor} {v : Outcome View} (hf : h.Fresh)
    (he : v.bind (asStrided h src) = .ok (h', t)) : h.Gains h' t.storage := by
  cases v with
  | fault => cases he
  | null => cases he
  | ok v => exact (asStrided_gains hf he).1

/-- A view operation makes one tensor and adds one reference to its storage. -/
theorem ViewOp.apply_gains {h h' : Heap} {src t : Tensor} {op : ViewOp} (hf : h.Fresh)
    (he : op.apply h src = .ok (h', t)) : h.Gains h' t.storage := by
  cases op with
  | narrow dim start size => exact view_gains hf he
  | slice dim start finish => exact view_gains hf he
  | permute axes => exact view_gains hf he
  | transpose dim1 dim2 => exact view_gains hf he
  | unsqueeze dim => exact view_gains hf he
  | squeeze dim =>
    change tensorSqueeze h src dim = _ at he
    unfold tensorSqueeze at he
    split at he
    · exact create_copy_gains hf he
    · exact view_gains hf he
  | reshape newShape =>
    change tensorReshape h src newShape = _ at he
    unfold tensorReshape at he
    split at he
    · cases he
    · revert he
      cases hs : resolveShape src.size newShape with
      | none => intro he; cases he
      | some shape =>
        simp only [Outcome.ofOption, Outcome.bind]
        split
        · intro he
          exact (asStrided_gains hf he).1
        · intro he
          exact create_copy_gains hf he

/-- The loop of `contiguous` keeps the counts. -/
theorem copyLoop_counts {dst src : Tensor} (l : List ℕ) :
    ∀ {h h' : Heap}, h.Fresh → l.foldlM (copyElement dst src) h = some h' →
      h'.Fresh ∧ h'.counts = h.counts := by
  induction l with
  | nil =>
    intro h h' hf he
    obtain rfl := Option.some.inj he
    exact ⟨hf, rfl⟩
  | cons i l ih =>
    intro h h' hf he
    obtain ⟨h₁, h1, h2⟩ := Option.bind_eq_some_iff.1 he
    obtain ⟨hf₁, hc₁⟩ := copyData_counts hf h1
    obtain ⟨hf₂, hc₂⟩ := ih hf₁ h2
    exact ⟨hf₂, hc₂.trans hc₁⟩

/-- `contiguous` of another tensor makes a tensor on a new storage. -/
theorem tensorContiguous_gains {h h' : Heap} {src t : Tensor} (hf : h.Fresh)
    (hn : isContiguous src = false) (he : tensorContiguous h src = .ok (h', t)) :
    h.Gains h' t.storage := by
  have hg := tensorCreate_gains hf src.shape src.dtype
  revert he
  simp only [tensorContiguous, hn, Bool.false_eq_true, if_false]
  cases hl : (List.range src.size.toNat).foldlM (copyElement (tensorCreate h src.shape src.dtype).2 src)
      (tensorCreate h src.shape src.dtype).1 with
  | none => intro he; cases he
  | some h₁ =>
    intro he
    obtain ⟨rfl, rfl⟩ := Prod.mk.inj (Outcome.ok.inj he)
    obtain ⟨hf₁, hcounts⟩ := copyLoop_counts _ hg.1 hl
    exact gains_of_counts hg hf₁ hcounts

/-- `contiguous` of a contiguous tensor adds two references for its one tensor. -/
theorem tensorContiguous_gains_twice {h h' : Heap} {src t : Tensor} (hf : h.Fresh)
    (hc : isContiguous src = true) (he : tensorContiguous h src = .ok (h', t)) :
    ∃ h₁, h.Gains h₁ t.storage ∧ h₁.Gains h' t.storage := by
  revert he
  simp only [tensorContiguous, hc, if_true]
  cases hr : storageRetain h src.storage with
  | none => intro he; cases he
  | some h₁ =>
    intro he
    have hg := storageRetain_gains hf hr
    obtain ⟨hg', hs⟩ := asStrided_gains hg.1 he
    exact ⟨h₁, hs ▸ hg, hg'⟩

theorem tensorContiguous_ne_null (h : Heap) (src : Tensor) : tensorContiguous h src ≠ .null := by
  unfold tensorContiguous asStrided
  split
  · cases storageRetain h src.storage with
    | none => intro he; cases he
    | some h₁ =>
      simp only [Outcome.ofOption, Outcome.bind]
      cases storageRetain h₁ src.storage with
      | none => intro he; cases he
      | some h₂ => intro he; cases he
  · dsimp only
    cases (List.range src.size.toNat).foldlM
        (copyElement (tensorCreate h src.shape src.dtype).2 src)
        (tensorCreate h src.shape src.dtype).1 with
    | none => intro he; cases he
    | some h₁ => intro he; cases he

/-- One reference less to `s`; the last one takes the storage away. -/
def Heap.Loses (h h' : Heap) (s : ℕ) : Prop :=
  ∃ c, h.counts s = some c ∧ h'.Fresh ∧
    h'.counts = Function.update h.counts s (if c - 1 ≤ 0 then none else some (c - 1))

theorem tensorDestroy_loses {h h' : Heap} {t : Tensor} (hf : h.Fresh)
    (he : tensorDestroy h t = some h') : h.Loses h' t.storage := by
  obtain ⟨st, hst, rfl⟩ := Option.map_eq_some_iff.1 he
  have hc : h.counts t.storage = some st.refCount := by simp [Heap.counts, hst]
  refine ⟨st.refCount, hc, fresh_update hf (lt_next hf hst) _, ?_⟩
  dsimp only
  rw [counts_update]
  by_cases h0 : st.refCount - 1 ≤ 0
  · simp [h0]
  · simp [h0]

/-! ## Steps -/

theorem step_cases {w w' : World} {c : Call} (hf : w.heap.Fresh) (he : w.step c = some w') :
    (w' = w ∧ w.Exact c) ∨
    (∃ t, w'.tensors = w.tensors ++ [some t] ∧ w.heap.Gains w'.heap t.storage ∧ w.Exact c) ∨
    (∃ t h₁, w'.tensors = w.tensors ++ [some t] ∧ w.heap.Gains h₁ t.storage ∧
      h₁.Gains w'.heap t.storage ∧ ¬w.Exact c) ∨
    (∃ s, w'.tensors = w.tensors ∧ w.heap.Gains w'.heap s ∧ ¬w.Exact c) ∨
    (∃ i t, w.tensor i = some t ∧ w'.tensors = w.tensors.set i none ∧
      w.heap.Loses w'.heap t.storage ∧ w.Exact c) := by
  cases c with
  | create shape dtype =>
    obtain rfl := Option.some.inj he
    exact .inr (.inl ⟨_, rfl, tensorCreate_gains hf shape dtype, trivial⟩)
  | view i op =>
    obtain ⟨t, ht, he⟩ := Option.bind_eq_some_iff.1 he
    revert he
    cases ha : op.apply w.heap t with
    | fault => intro he; cases he
    | null =>
      intro he
      exact .inl ⟨(Option.some.inj he).symm, trivial⟩
    | ok r =>
      intro he
      obtain rfl := Option.some.inj he
      exact .inr (.inl ⟨_, rfl, ViewOp.apply_gains hf ha, trivial⟩)
  | contiguous i =>
    obtain ⟨t, ht, he⟩ := Option.bind_eq_some_iff.1 he
    revert he
    cases ha : tensorContiguous w.heap t with
    | fault => intro he; cases he
    | null => exact absurd ha (tensorContiguous_ne_null _ _)
    | ok r =>
      intro he
      obtain rfl := Option.some.inj he
      by_cases hc : isContiguous t = true
      · obtain ⟨h₁, hg₁, hg₂⟩ := tensorContiguous_gains_twice hf hc ha
        refine .inr (.inr (.inl ⟨_, h₁, rfl, hg₁, hg₂, fun hx => ?_⟩))
        rw [hx t ht] at hc
        cases hc
      · have hn : isContiguous t = false := by simpa using hc
        refine .inr (.inl ⟨_, rfl, tensorContiguous_gains hf hn ha, fun t' ht' => ?_⟩)
        obtain rfl := Option.some.inj (ht.symm.trans ht')
        exact hn
  | retain i =>
    obtain ⟨t, ht, he⟩ := Option.bind_eq_some_iff.1 he
    obtain ⟨h₁, h1, rfl⟩ := Option.map_eq_some_iff.1 he
    exact .inr (.inr (.inr (.inl ⟨_, rfl, storageRetain_gains hf h1, id⟩)))
  | destroy i =>
    obtain ⟨t, ht, he⟩ := Option.bind_eq_some_iff.1 he
    obtain ⟨h₁, h1, rfl⟩ := Option.map_eq_some_iff.1 he
    exact .inr (.inr (.inr (.inr ⟨i, t, ht, rfl, tensorDestroy_loses hf h1, trivial⟩)))

theorem step_fresh {w w' : World} {c : Call} (hf : w.heap.Fresh) (he : w.step c = some w') :
    w'.heap.Fresh := by
  obtain ⟨rfl, -⟩ | ⟨t, -, hg, -⟩ | ⟨t, h₁, -, -, hg, -⟩ | ⟨s, -, hg, -⟩ | ⟨i, t, -, -, ⟨c, -, hl, -⟩, -⟩ :=
    step_cases hf he
  · exact hf
  · exact hg.1
  · exact hg.1
  · exact hg.1
  · exact hl

theorem live_push {w w' : World} {t : Tensor} (he : w'.tensors = w.tensors ++ [some t]) (s : ℕ) :
    w'.live s = w.live s + if t.storage = s then 1 else 0 := by
  simp [World.live, he, List.countP_append]

/-- The live tensors before one was destroyed. -/
theorem live_destroy {w w' : World} {i : ℕ} {t : Tensor} (ht : w.tensor i = some t)
    (he : w'.tensors = w.tensors.set i none) (s : ℕ) :
    w.live s = w'.live s + if t.storage = s then 1 else 0 := by
  have ht' : w.tensors[i]? = some (some t) := Option.join_eq_some_iff.1 ht
  obtain ⟨hi, hget⟩ := List.getElem?_eq_some_iff.1 ht'
  have hcount := List.countP_set (p := fun t : Option Tensor => t.map Tensor.storage = some s) (a := none) hi
  have hpos : t.storage = s → 0 < w.live s := fun hs =>
    List.countP_pos_iff.2 ⟨some t, hget ▸ List.getElem_mem hi, by simp [hs]⟩
  simp only [World.live, he] at hpos ⊢
  rw [hcount, hget]
  by_cases hs : t.storage = s
  · have := hpos hs
    simp only [hs, Option.map_some, decide_true, if_true, Option.map_none, reduceCtorEq, decide_false,
      Bool.false_eq_true, if_false]
    omega
  · simp [hs]

theorem gains_count {h h' : Heap} {s : ℕ} (hg : h.Gains h' s) (x : ℕ) :
    h'.counts x = if s = x then some ((h.counts x).getD 0 + 1) else h.counts x := by
  rw [hg.2]
  by_cases hx : x = s
  · simp [hx]
  · simp [Function.update_of_ne hx, Ne.symm hx]

theorem step_balanced {w w' : World} {c : Call} (hf : w.heap.Fresh) (hb : w.Balanced)
    (hx : w.Exact c) (he : w.step c = some w') : w'.Balanced := by
  obtain ⟨rfl, -⟩ | ⟨t, ht, hg, -⟩ | ⟨t, h₁, -, -, -, hn⟩ | ⟨s, -, -, hn⟩ | ⟨i, t, hi, ht, hl, -⟩ :=
    step_cases hf he
  · exact hb
  · intro x
    rw [gains_count hg, live_push ht, hb x]
    by_cases hs : t.storage = x
    · by_cases h0 : w.live x = 0
      · simp [hs, h0, countOf]
      · simp [hs, h0, countOf]
    · simp [hs]
  · exact absurd hx hn
  · exact absurd hx hn
  · intro x
    obtain ⟨n, hn, -, hcounts⟩ := hl
    have hlive := live_destroy hi ht x
    rw [hcounts]
    by_cases hs : t.storage = x
    · subst hs
      have hbal := hb t.storage
      simp only [if_true] at hlive
      rw [hn, hlive] at hbal
      have hval : n = ((w'.live t.storage + 1 : ℕ) : ℤ) := by simpa [countOf] using hbal
      by_cases h0 : w'.live t.storage = 0
      · simp [hval, h0, countOf]
      · simp [hval, h0, countOf]
    · rw [if_neg hs, Nat.add_zero] at hlive
      rw [Function.update_of_ne (Ne.symm hs), hb x, hlive]

/-! ## Surplus references -/

/-- A storage has more references than tensors. -/
def World.Surplus (w : World) : Prop := ∃ s c, w.heap.counts s = some c ∧ (w.live s : ℤ) < c

theorem surplus_not_balanced {w : World} (h : w.Surplus) : ¬w.Balanced := by
  rintro hb
  obtain ⟨s, c, hc, hlt⟩ := h
  have hbs := hb s
  rw [hc] at hbs
  by_cases h0 : w.live s = 0
  · simp [countOf, h0] at hbs
  · simp only [countOf, h0, if_false, Option.some.injEq] at hbs
    omega

theorem step_surplus_of_not_exact {w w' : World} {c : Call} (hf : w.heap.Fresh) (hb : w.Balanced)
    (hx : ¬w.Exact c) (he : w.step c = some w') : w'.Surplus := by
  have hcount : ∀ s, (w.heap.counts s).getD 0 = w.live s := by
    intro s
    rw [hb s]
    by_cases h0 : w.live s = 0
    · simp [countOf, h0]
    · simp [countOf, h0]
  obtain ⟨-, hn⟩ | ⟨t, -, -, hn⟩ | ⟨t, h₁, ht, hg₁, hg₂, -⟩ | ⟨s, ht, hg, -⟩ | ⟨i, t, -, -, -, hn⟩ :=
    step_cases hf he
  · exact absurd hn hx
  · exact absurd hn hx
  · refine ⟨t.storage, w.live t.storage + 1 + 1, ?_, ?_⟩
    · rw [gains_count hg₂, gains_count hg₁]
      simp [hcount]
    · rw [live_push ht]
      simp
  · refine ⟨s, w.live s + 1, ?_, ?_⟩
    · rw [gains_count hg]
      simp [hcount]
    · simp [World.live, ht]
  · exact absurd hn hx

theorem step_surplus {w w' : World} {c : Call} (hf : w.heap.Fresh) (hs : w.Surplus)
    (he : w.step c = some w') : w'.Surplus := by
  obtain ⟨s, n, hn, hlt⟩ := hs
  obtain ⟨rfl, -⟩ | ⟨t, ht, hg, -⟩ | ⟨t, h₁, ht, hg₁, hg₂, -⟩ | ⟨x, ht, hg, -⟩ | ⟨i, t, hi, ht, hl, -⟩ :=
    step_cases hf he
  · exact ⟨s, n, hn, hlt⟩
  · have hlive := live_push ht s
    have hcount := gains_count hg s
    by_cases hts : t.storage = s
    · exact ⟨s, n + 1, by simp [hcount, hts, hn], by simp [hlive, hts, hlt]⟩
    · exact ⟨s, n, by simp [hcount, hts, hn], by simp [hlive, hts, hlt]⟩
  · have hlive := live_push ht s
    have hcount := gains_count hg₂ s
    rw [gains_count hg₁] at hcount
    by_cases hts : t.storage = s
    · refine ⟨s, n + 1 + 1, by simp [hcount, hts, hn], ?_⟩
      simp only [hlive, hts, if_true]
      omega
    · exact ⟨s, n, by simp [hcount, hts, hn], by simp [hlive, hts, hlt]⟩
  · have hlive : w'.live s = w.live s := by simp [World.live, ht]
    have hcount := gains_count hg s
    by_cases hxs : x = s
    · refine ⟨s, n + 1, by simp [hcount, hxs, hn], ?_⟩
      rw [hlive]
      omega
    · exact ⟨s, n, by simp [hcount, hxs, hn], by simp [hlive, hlt]⟩
  · have hlive := live_destroy hi ht s
    obtain ⟨m, hm, -, hcounts⟩ := hl
    by_cases hts : t.storage = s
    · -- the count was at least two, so that the storage stays
      subst hts
      obtain rfl := Option.some.inj (hm.symm.trans hn)
      simp only [if_true] at hlive
      have hpos : ¬m - 1 ≤ 0 := by omega
      refine ⟨t.storage, m - 1, by simp [hcounts, hpos], ?_⟩
      omega
    · simp only [hts, if_false, Nat.add_zero] at hlive
      refine ⟨s, n, ?_, hlive ▸ hlt⟩
      rw [hcounts, Function.update_of_ne (Ne.symm hts), hn]

/-! ## Runs -/

theorem run_surplus {w w' : World} (calls : List Call) (hf : w.heap.Fresh) (hs : w.Surplus)
    (he : w.run calls = some w') : w'.Surplus := by
  induction calls generalizing w with
  | nil =>
    obtain rfl := Option.some.inj he
    exact hs
  | cons c calls ih =>
    obtain ⟨w₁, h1, h2⟩ := Option.bind_eq_some_iff.1 he
    exact ih (step_fresh hf h1) (step_surplus hf hs h1) h2

/-- From a balanced state, a program ends in a balanced one exactly if all its calls are exact. -/
theorem run_balanced_of_balanced {w w' : World} (calls : List Call) (hf : w.heap.Fresh)
    (hb : w.Balanced) (he : w.run calls = some w') : w'.Balanced ↔ w.AllExact calls := by
  induction calls generalizing w with
  | nil =>
    obtain rfl := Option.some.inj he
    exact ⟨fun _ => trivial, fun _ => hb⟩
  | cons c calls ih =>
    obtain ⟨w₁, h1, h2⟩ := Option.bind_eq_some_iff.1 he
    have hf₁ := step_fresh hf h1
    by_cases hx : w.Exact c
    · rw [ih hf₁ (step_balanced hf hb hx h1) h2]
      constructor
      · intro hall
        refine ⟨hx, fun w₂ h3 => ?_⟩
        obtain rfl := Option.some.inj (h1.symm.trans h3)
        exact hall
      · exact fun hall => hall.2 w₁ h1
    · have hsur := run_surplus calls hf₁ (step_surplus_of_not_exact hf hb hx h1) h2
      exact ⟨fun hb' => absurd hb' (surplus_not_balanced hsur), fun hall => absurd hall.1 hx⟩

theorem empty_fresh (fresh : ℕ → ℕ → UInt8) : (World.empty fresh).heap.Fresh := fun _ _ => rfl

theorem empty_balanced (fresh : ℕ → ℕ → UInt8) : (World.empty fresh).Balanced := fun _ => rfl

/-- The count of every storage is the number of the live tensors on it, and a storage is gone when its
last tensor is destroyed, after exactly those programs all of whose calls are exact. -/
theorem run_balanced_iff (fresh : ℕ → ℕ → UInt8) (calls : List Call) (w : World)
    (he : (World.empty fresh).run calls = some w) :
    w.Balanced ↔ (World.empty fresh).AllExact calls :=
  run_balanced_of_balanced calls (empty_fresh fresh) (empty_balanced fresh) he

/-- A tensor, a view of it, and the view alone. -/
theorem run_balanced_narrow :
    ∃ w, (World.empty fun _ _ => 0).run
        [.create [4, 3] .float32, .view 0 (.narrow 1 1 2), .contiguous 1, .destroy 0] = some w ∧
      w.heap.counts 0 = some 1 ∧ w.heap.counts 1 = some 1 ∧ w.Balanced := by
  have hrun : ((World.empty fun _ _ => 0).run
      [.create [4, 3] .float32, .view 0 (.narrow 1 1 2), .contiguous 1, .destroy 0]).map
        (fun w => (w.heap.counts 0, w.heap.counts 1)) = some (some 1, some 1) := by decide +kernel
  obtain ⟨w, hw, hcounts⟩ := Option.map_eq_some_iff.1 hrun
  refine ⟨w, hw, congrArg Prod.fst hcounts, congrArg Prod.snd hcounts, ?_⟩
  rw [run_balanced_iff _ _ _ hw]
  refine ⟨trivial, fun w₁ h1 => ⟨trivial, fun w₂ h2 =>
    ⟨fun t ht => ?_, fun w₃ h3 => ⟨trivial, fun _ _ => trivial⟩⟩⟩⟩
  have hview : ((World.empty fun _ _ => 0).run
      [.create [4, 3] .float32, .view 0 (.narrow 1 1 2)]).bind
        (fun w => (w.tensor 1).map isContiguous) = some false := by decide +kernel
  simpa [World.run, h1, h2, ht] using hview

/-- A tensor and its contiguous view are destroyed, and the storage stays. -/
theorem not_balanced_contiguous :
    ¬∀ (fresh : ℕ → ℕ → UInt8) (calls : List Call) (w : World),
      (World.empty fresh).run calls = some w → w.Balanced := by
  intro h
  have hrun : ((World.empty fun _ _ => 0).run
      [.create [2] .float32, .contiguous 0, .destroy 0, .destroy 1]).map
        (fun w => (w.heap.counts 0, w.live 0)) = some (some 1, 0) := by decide +kernel
  obtain ⟨w, hw, hcounts⟩ := Option.map_eq_some_iff.1 hrun
  obtain ⟨hcount, hlive⟩ := Prod.mk.inj hcounts
  have hb := h _ _ w hw 0
  rw [hcount, hlive] at hb
  cases hb

end SneppxAlg.TensorEngine
