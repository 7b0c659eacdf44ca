import Mathlib.Algebra.BigOperators.Group.List.Basic
import Mathlib.Algebra.Order.BigOperators.Group.List
import Mathlib.Algebra.Order.Field.Basic
import Mathlib.Algebra.Order.Ring.Rat
import Mathlib.Analysis.Complex.Exponential
import Mathlib.Tactic.Linarith
import Mathlib.Tactic.NormNum
import Mathlib.Tactic.Positivity
import SneppxAlg.Lib.ExchangeSort

/-!
# Sampling from logits

`SNEPPX_sample_from_logits` of `kernel/inference/inference_engine.c`, over exact arithmetic. The probabilities
are filtered by `top_k` and by `top_p`, and divided by their sum each time. Since a small constant is added to
the sum, they stay below one in all (`total_normalize`), and a draw may be above all of them; the
result then is token 0, whether or not it has survived the filters.

So the result has survived unless such a draw meets a token 0 that has not (`sample_survives_iff`).

A vocabulary has at most `INT_MAX` tokens, since a token is an `int`.
-/

namespace SneppxAlg.Sampling

open Lib.ExchangeSort

variable {F : Type} [Field F] [LinearOrder F]

/-! ## The function -/

/-- The fields of `SNEPPXGenerationConfig` that are read here. -/
structure GenerationConfig (F : Type) where
  temperature : F
  topP : F
  topK : ℤ

/-- `1e-10f`. -/
def eps : F := 1 / 10 ^ 10

/-- The sum over all tokens. -/
def total (n : ℕ) (p : ℕ → F) : F := ((List.range n).map p).sum

/-- `probs[i] *= inv_sum`. -/
def normalize (n : ℕ) (p : ℕ → F) (i : ℕ) : F := p i * (1 / (total n p + eps))

def maxOf (n : ℕ) (p : ℕ → F) : F := (List.range' 1 (n - 1)).foldl (fun m i => if m < p i then p i else m) (p 0)

/-- `indices` after the sort. -/
def order (n : ℕ) (p : ℕ → F) : List ℕ := sort p (List.range n)

variable (exp : F → F) (cfg : GenerationConfig F) (logits : List F)

def scaled (i : ℕ) : F := logits.getD i 0 / (if 0 < cfg.temperature then cfg.temperature else 1)

/-- `expf(probs[i] - max_logit)`. -/
def weights (i : ℕ) : F := exp (scaled cfg logits i - maxOf logits.length (scaled cfg logits))

def softmax : ℕ → F := normalize logits.length (weights exp cfg logits)

/-- The probabilities that `top_k` leaves. -/
def keepTopK (n : ℕ) (topK : ℤ) (p : ℕ → F) (i : ℕ) : F :=
  if p i < p ((order n p).getD (topK - 1).toNat 0) then 0 else p i

def TopKActive (n : ℕ) (topK : ℤ) : Prop := 0 < topK ∧ topK < n

instance (n : ℕ) (topK : ℤ) : Decidable (TopKActive n topK) := inferInstanceAs (Decidable (_ ∧ _))

def filterTopK (n : ℕ) (topK : ℤ) (p : ℕ → F) : ℕ → F :=
  if TopKActive n topK then normalize n (keepTopK n topK p) else p

/-- A round of the loop with `cum`. -/
def cut (topP : F) (s : F × (ℕ → F)) (i : ℕ) : F × (ℕ → F) :=
  let p := if topP ≤ s.1 then Function.update s.2 i 0 else s.2
  (s.1 + p i, p)

def keepTopP (n : ℕ) (topP : F) (p : ℕ → F) : ℕ → F := ((order n p).foldl (cut topP) (0, p)).2

def TopPActive (topP : F) : Prop := 0 < topP ∧ topP < 1

instance (topP : F) : Decidable (TopPActive topP) := inferInstanceAs (Decidable (_ ∧ _))

def filterTopP (n : ℕ) (topP : F) (p : ℕ → F) : ℕ → F :=
  if TopPActive topP then normalize n (keepTopP n topP p) else p

/-- The first token that takes the sum of the probabilities above the draw. -/
def pick (r : F) (p : ℕ → F) : (cumulative : F) → List ℕ → Option ℕ
  | _, [] => none
  | cumulative, i :: l => if r < cumulative + p i then some i else pick r p (cumulative + p i) l

/-- `SNEPPX_argmax` for logits that are there. -/
def argmax : ℕ := leader (fun i => logits.getD i 0) logits.length

/-- `SNEPPX_sample_from_logits`, `none` if it returns -1; `alloc` says whether `probs` and `indices` are there, and `r`
is the draw. -/
def sample (alloc : Bool) (r : F) : Option ℕ :=
  if logits.length = 0 then none
  else if !alloc then some (argmax logits)
  else
    let probs := filterTopP logits.length cfg.topP (filterTopK logits.length cfg.topK (softmax exp cfg logits))
    some ((pick r probs 0 (List.range logits.length)).getD 0)

/-! ## What survives -/

/-- The probability is at least the `top_k`-th largest: fewer than `top_k` are larger. -/
def AmongTopK (n : ℕ) (topK : ℤ) (p : ℕ → F) (i : ℕ) : Prop :=
  ((List.range n).countP fun j => p i < p j) < topK

/-- In the smallest prefix of the order that reaches `top_p`: those before it do not reach it. -/
def AmongTopP (n : ℕ) (topP : F) (p : ℕ → F) (i : ℕ) : Prop :=
  ∃ before after, order n p = before ++ i :: after ∧ (before.map p).sum < topP

/-- All tokens, the most probable first. -/
structure MostProbableFirst (n : ℕ) (p : ℕ → F) (l : List ℕ) : Prop where
  perm : l.Perm (List.range n)
  falling : l.Pairwise fun i j => p j ≤ p i

/-- The token survives the filters that are active. -/
structure Survives (i : ℕ) : Prop where
  lt : i < logits.length
  topK : TopKActive logits.length cfg.topK → AmongTopK logits.length cfg.topK (softmax exp cfg logits) i
  topP : TopPActive cfg.topP →
    AmongTopP logits.length cfg.topP (filterTopK logits.length cfg.topK (softmax exp cfg logits)) i

open Classical in
/-- The probabilities of the survivors before they are divided by their sum for the last time. -/
noncomputable def surviving (i : ℕ) : F :=
  if TopPActive cfg.topP then
    if Survives exp cfg logits i then filterTopK logits.length cfg.topK (softmax exp cfg logits) i else 0
  else if TopKActive logits.length cfg.topK then
    if Survives exp cfg logits i then softmax exp cfg logits i else 0
  else weights exp cfg logits i

/-- What the probabilities of the survivors add up to in the end. -/
noncomputable def mass : F :=
  total logits.length (surviving exp cfg logits) / (total logits.length (surviving exp cfg logits) + eps)

/-! ## Sums and quotients -/

section Sums

variable [IsStrictOrderedRing F] {n : ℕ} {p q : ℕ → F} {i j : ℕ}

theorem eps_pos : (0 : F) < eps := by
  rw [eps]
  positivity

omit [LinearOrder F] [IsStrictOrderedRing F] in
theorem total_congr (h : ∀ i < n, p i = q i) : total n p = total n q := by
  rw [total, total, List.map_congr_left fun i hi => h i (List.mem_range.mp hi)]

theorem total_nonneg (h : ∀ i < n, 0 ≤ p i) : 0 ≤ total n p := by
  refine List.sum_nonneg fun x hx => ?_
  obtain ⟨i, hi, rfl⟩ := List.mem_map.mp hx
  exact h i (List.mem_range.mp hi)

omit [LinearOrder F] [IsStrictOrderedRing F] in
/-- What is left of one. -/
theorem total_normalize (n : ℕ) (p : ℕ → F) : total n (normalize n p) = total n p / (total n p + eps) := by
  rw [total, List.map_congr_left fun i _ => show normalize n p i = p i * (1 / (total n p + eps)) from rfl,
    List.sum_map_mul_right, mul_one_div]
  rfl

theorem factor_pos (h : ∀ i < n, 0 ≤ p i) : 0 < 1 / (total n p + eps) :=
  one_div_pos.mpr (add_pos_of_nonneg_of_pos (total_nonneg h) eps_pos)

theorem normalize_pos_iff (h : ∀ i < n, 0 ≤ p i) : 0 < normalize n p i ↔ 0 < p i :=
  mul_pos_iff_of_pos_right (factor_pos h)

theorem normalize_nonneg (h : ∀ i < n, 0 ≤ p i) (hi : i < n) : 0 ≤ normalize n p i :=
  mul_nonneg (h i hi) (factor_pos h).le

theorem normalize_lt_iff (h : ∀ i < n, 0 ≤ p i) : normalize n p i < normalize n p j ↔ p i < p j :=
  mul_lt_mul_iff_of_pos_right (factor_pos h)

omit [LinearOrder F] [IsStrictOrderedRing F] in
theorem normalize_congr (h : ∀ i < n, p i = q i) (hi : i < n) : normalize n p i = normalize n q i := by
  rw [normalize, normalize, total_congr h, h i hi]

end Sums

/-! ## The filters -/

section Filters

variable [IsStrictOrderedRing F] {n : ℕ} {topK : ℤ} {topP : F} {p : ℕ → F} {i : ℕ}

omit [Field F] [IsStrictOrderedRing F] in
theorem order_perm (n : ℕ) (p : ℕ → F) : (order n p).Perm (List.range n) := sort_perm p _

omit [Field F] [IsStrictOrderedRing F] in
theorem mem_order : i ∈ order n p ↔ i < n := by rw [(order_perm n p).mem_iff, List.mem_range]

omit [IsStrictOrderedRing F] in
theorem keepTopK_eq (hactive : TopKActive n topK) (i : ℕ) :
    (AmongTopK n topK p i → keepTopK n topK p i = p i) ∧ (¬AmongTopK n topK p i → keepTopK n topK p i = 0) := by
  obtain ⟨hpos, hlt⟩ := hactive
  have hlength : (order n p).length = n := by rw [(order_perm n p).length_eq, List.length_range]
  have hkth : (order n p)[topK.toNat - 1]? = some ((order n p).getD (topK - 1).toNat 0) := by
    rw [show (topK - 1).toNat = topK.toNat - 1 by omega, List.getD_eq_getElem?_getD,
      List.getElem?_eq_getElem (by omega), Option.getD_some]
  have hcount := countP_lt_iff (x := i) (pairwise_sort p (List.range n)) (by omega) hkth
  rw [(sort_perm p (List.range n)).countP_eq] at hcount
  have hiff : AmongTopK n topK p i ↔ p ((order n p).getD (topK - 1).toNat 0) ≤ p i := by
    rw [← hcount, AmongTopK]
    omega
  rw [hiff, keepTopK]
  exact ⟨fun h => if_neg h.not_gt, fun h => if_pos (not_le.mp h)⟩

omit [IsStrictOrderedRing F] in
theorem cut_of_le {cum : F} {q : ℕ → F} (h : topP ≤ cum) : cut topP (cum, q) i = (cum, Function.update q i 0) := by
  rw [cut]
  dsimp only
  rw [if_pos h, Function.update_self, add_zero]

omit [IsStrictOrderedRing F] in
theorem cut_of_lt {cum : F} {q : ℕ → F} (h : cum < topP) : cut topP (cum, q) i = (cum + q i, q) := by
  rw [cut]
  dsimp only
  rw [if_neg h.not_ge]

/-- The tokens before it do not take the sum from `cum` to `top_p`. -/
def Within (topP : F) (p : ℕ → F) (cum : F) (l : List ℕ) (i : ℕ) : Prop :=
  ∃ before after, l = before ++ i :: after ∧ cum + (before.map p).sum < topP

theorem not_within_of_le {cum : F} {l : List ℕ} (hp : ∀ j ∈ l, 0 ≤ p j) (h : topP ≤ cum) :
    ¬Within topP p cum l i := by
  rintro ⟨before, after, rfl, hlt⟩
  have hsum : 0 ≤ (before.map p).sum := by
    refine List.sum_nonneg fun x hx => ?_
    obtain ⟨j, hj, rfl⟩ := List.mem_map.mp hx
    exact hp j (List.mem_append_left _ hj)
  exact absurd (hlt.trans_le h) (not_lt.mpr (le_add_of_nonneg_right hsum))

omit [IsStrictOrderedRing F] in
theorem within_cons_self {cum : F} {l : List ℕ} (h : cum < topP) : Within topP p cum (i :: l) i :=
  ⟨[], l, rfl, by simpa using h⟩

omit [IsStrictOrderedRing F] in
theorem within_cons_iff {cum : F} {l : List ℕ} {j : ℕ} (hij : i ≠ j) :
    Within topP p cum (j :: l) i ↔ Within topP p (cum + p j) l i := by
  constructor
  · rintro ⟨before, after, heq, hlt⟩
    cases before with
    | nil => exact absurd (List.cons.inj heq).1.symm hij
    | cons b before =>
      obtain ⟨rfl, rfl⟩ := List.cons.inj heq
      exact ⟨before, after, rfl, by rwa [List.map_cons, List.sum_cons, ← add_assoc] at hlt⟩
  · rintro ⟨before, after, rfl, hlt⟩
    exact ⟨j :: before, after, rfl, by rwa [List.map_cons, List.sum_cons, ← add_assoc]⟩

/-- What the loop with `cum` leaves: once `top_p` is reached, nothing. -/
theorem foldl_cut {l : List ℕ} (hl : l.Nodup) (hp : ∀ j ∈ l, 0 ≤ p j) {cum : F} {q : ℕ → F} (hq : ∀ j ∈ l, q j = p j) :
    (i ∉ l → (l.foldl (cut topP) (cum, q)).2 i = q i) ∧
      (i ∈ l → (Within topP p cum l i → (l.foldl (cut topP) (cum, q)).2 i = p i) ∧
        (¬Within topP p cum l i → (l.foldl (cut topP) (cum, q)).2 i = 0)) := by
  induction l generalizing cum q with
  | nil => exact ⟨fun _ => rfl, nofun⟩
  | cons j l ih =>
    obtain ⟨hj, hl⟩ := List.nodup_cons.mp hl
    obtain ⟨hpj, hpl⟩ := List.forall_mem_cons.mp hp
    obtain ⟨hqj, hql⟩ := List.forall_mem_cons.mp hq
    rw [List.foldl_cons, List.mem_cons, not_or]
    rcases le_or_gt topP cum with hge | hlt
    · rw [cut_of_le hge]
      have hother : ∀ k ∈ l, Function.update q j 0 k = p k := fun k hk => by
        rw [Function.update_of_ne (ne_of_mem_of_not_mem hk hj), hql k hk]
      obtain ⟨hout, hin⟩ := @ih hl hpl cum _ hother
      have hnot := not_within_of_le (i := i) hp hge
      refine ⟨fun hi => ?_, fun hi => ⟨fun hw => absurd hw hnot, fun _ => ?_⟩⟩
      · rw [hout hi.2, Function.update_of_ne hi.1]
      · by_cases hil : i ∈ l
        · exact (hin hil).2 (not_within_of_le hpl hge)
        · obtain rfl := hi.resolve_right hil
          rw [hout hil, Function.update_self]
    · rw [cut_of_lt hlt, hqj]
      obtain ⟨hout, hin⟩ := @ih hl hpl (cum + p j) _ hql
      refine ⟨fun hi => hout hi.2, fun hi => ?_⟩
      rcases eq_or_ne i j with rfl | hne
      · rw [hout hj]
        exact ⟨fun _ => hqj, fun hnot => absurd (within_cons_self hlt) hnot⟩
      · rw [within_cons_iff hne]
        exact hin (hi.resolve_left hne)

theorem keepTopP_eq (hp : ∀ j < n, 0 ≤ p j) (hi : i < n) :
    (AmongTopP n topP p i → keepTopP n topP p i = p i) ∧ (¬AmongTopP n topP p i → keepTopP n topP p i = 0) := by
  have hiff : AmongTopP n topP p i ↔ Within topP p 0 (order n p) i := by
    simp only [AmongTopP, Within, zero_add]
  rw [hiff]
  refine (foldl_cut ?_ ?_ fun _ _ => rfl).2 (mem_order.mpr hi)
  · exact (order_perm n p).nodup_iff.mpr List.nodup_range
  · exact fun j hj => hp j (mem_order.mp hj)

end Filters

/-! ## The probabilities in the end -/

section Final

variable [IsStrictOrderedRing F] {exp : F → F} {cfg : GenerationConfig F} {logits : List F} {i : ℕ}

omit [IsStrictOrderedRing F] in
theorem weights_pos (hexp : ∀ x, 0 < exp x) (i : ℕ) : 0 < weights exp cfg logits i := hexp _

theorem softmax_pos (hexp : ∀ x, 0 < exp x) (i : ℕ) : 0 < softmax exp cfg logits i :=
  (normalize_pos_iff fun j _ => (weights_pos hexp j).le).mpr (weights_pos hexp i)

/-- The probabilities after the first filter. -/
abbrev afterTopK (exp : F → F) (cfg : GenerationConfig F) (logits : List F) : ℕ → F :=
  filterTopK logits.length cfg.topK (softmax exp cfg logits)

abbrev afterTopP (exp : F → F) (cfg : GenerationConfig F) (logits : List F) : ℕ → F :=
  filterTopP logits.length cfg.topP (afterTopK exp cfg logits)

theorem keepTopK_nonneg (hexp : ∀ x, 0 < exp x) (i : ℕ) :
    0 ≤ keepTopK logits.length cfg.topK (softmax exp cfg logits) i := by
  rw [keepTopK]
  split_ifs
  · exact le_rfl
  · exact (softmax_pos hexp i).le

theorem afterTopK_nonneg (hexp : ∀ x, 0 < exp x) (hi : i < logits.length) : 0 ≤ afterTopK exp cfg logits i := by
  rw [afterTopK, filterTopK]
  split_ifs
  · exact normalize_nonneg (fun j _ => keepTopK_nonneg hexp j) hi
  · exact (softmax_pos hexp i).le

theorem afterTopK_pos_iff (hexp : ∀ x, 0 < exp x) (i : ℕ) : 0 < afterTopK exp cfg logits i ↔
    (TopKActive logits.length cfg.topK → AmongTopK logits.length cfg.topK (softmax exp cfg logits) i) := by
  rw [afterTopK, filterTopK]
  split_ifs with hactive
  · obtain ⟨hkeep, hdrop⟩ := keepTopK_eq (p := softmax exp cfg logits) hactive i
    rw [normalize_pos_iff fun j _ => keepTopK_nonneg hexp j]
    constructor
    · intro hpos _
      by_contra hnot
      rw [hdrop hnot] at hpos
      exact lt_irrefl 0 hpos
    · intro hamong
      rw [hkeep (hamong hactive)]
      exact softmax_pos hexp i
  · exact iff_of_true (softmax_pos hexp i) fun h => absurd h hactive

theorem survives_iff (hexp : ∀ x, 0 < exp x) (hi : i < logits.length) : Survives exp cfg logits i ↔
    0 < afterTopK exp cfg logits i ∧
      (TopPActive cfg.topP → AmongTopP logits.length cfg.topP (afterTopK exp cfg logits) i) := by
  rw [afterTopK_pos_iff hexp]
  exact ⟨fun h => ⟨h.topK, h.topP⟩, fun h => ⟨hi, h.1, h.2⟩⟩

theorem surviving_nonneg (hexp : ∀ x, 0 < exp x) (hi : i < logits.length) : 0 ≤ surviving exp cfg logits i := by
  rw [surviving]
  split_ifs
  · exact afterTopK_nonneg hexp hi
  · exact le_rfl
  · exact (softmax_pos hexp i).le
  · exact le_rfl
  · exact (weights_pos hexp i).le

/-- The last division is that of the probabilities of the survivors. -/
theorem afterTopP_eq (hexp : ∀ x, 0 < exp x) (hi : i < logits.length) :
    afterTopP exp cfg logits i = normalize logits.length (surviving exp cfg logits) i := by
  rw [afterTopP, filterTopP]
  split_ifs with hP
  · refine normalize_congr (fun j hj => ?_) hi
    obtain ⟨hkeep, hdrop⟩ := @keepTopP_eq _ _ _ _ _ cfg.topP _ _
      (fun k hk => @afterTopK_nonneg _ _ _ _ _ cfg _ _ hexp hk) hj
    rw [surviving, if_pos hP]
    split_ifs with hsurvives
    · exact hkeep (hsurvives.topP hP)
    · by_cases hamong : AmongTopP logits.length cfg.topP (afterTopK exp cfg logits) j
      · -- it was dropped by the first filter
        rw [hkeep hamong]
        rw [survives_iff hexp hj, not_and] at hsurvives
        exact ((afterTopK_nonneg hexp hj).eq_or_lt.resolve_right fun hpos => hsurvives hpos fun _ => hamong).symm
      · exact hdrop hamong
  · rw [afterTopK, filterTopK]
    split_ifs with hK
    · refine normalize_congr (fun j hj => ?_) hi
      obtain ⟨hkeep, hdrop⟩ := keepTopK_eq (p := softmax exp cfg logits) hK j
      rw [surviving, if_neg hP, if_pos hK]
      split_ifs with hsurvives
      · exact hkeep (hsurvives.topK hK)
      · exact hdrop fun hamong => hsurvives ⟨hj, fun _ => hamong, fun h => absurd h hP⟩
    · exact normalize_congr (fun j hj => by rw [surviving, if_neg hP, if_neg hK]) hi

theorem afterTopP_nonneg (hexp : ∀ x, 0 < exp x) (hi : i < logits.length) : 0 ≤ afterTopP exp cfg logits i := by
  rw [afterTopP_eq hexp hi]
  exact normalize_nonneg (fun j hj => surviving_nonneg hexp hj) hi

/-- A token with a probability has survived. -/
theorem survives_of_pos (hexp : ∀ x, 0 < exp x) (hi : i < logits.length) (h : 0 < afterTopP exp cfg logits i) :
    Survives exp cfg logits i := by
  rw [afterTopP_eq hexp hi, normalize_pos_iff fun j hj => surviving_nonneg hexp hj, surviving] at h
  split_ifs at h with hP hsurvives hK hsurvives
  · exact hsurvives
  · exact absurd h (lt_irrefl 0)
  · exact hsurvives
  · exact absurd h (lt_irrefl 0)
  · exact ⟨hi, fun hactive => absurd hactive hK, fun hactive => absurd hactive hP⟩

theorem total_afterTopP (hexp : ∀ x, 0 < exp x) :
    total logits.length (afterTopP exp cfg logits) = mass exp cfg logits := by
  rw [total_congr fun j hj => afterTopP_eq hexp hj, total_normalize, mass]

end Final

/-! ## The draw -/

section Draw

variable [IsStrictOrderedRing F] {p : ℕ → F} {r : F}

/-- The token that is picked has a probability. -/
theorem pick_spec {l : List ℕ} (hp : ∀ j ∈ l, 0 ≤ p j) {cum : F} (hr : cum ≤ r) :
    (r < cum + (l.map p).sum → ∃ i ∈ l, pick r p cum l = some i ∧ 0 < p i) ∧
      (cum + (l.map p).sum ≤ r → pick r p cum l = none) := by
  induction l generalizing cum with
  | nil =>
    rw [List.map_nil, List.sum_nil, add_zero]
    exact ⟨fun hlt => absurd hlt hr.not_gt, fun _ => rfl⟩
  | cons j l ih =>
    obtain ⟨hpj, hpl⟩ := List.forall_mem_cons.mp hp
    rw [pick, List.map_cons, List.sum_cons, ← add_assoc]
    split_ifs with hlt
    · refine ⟨fun _ => ⟨j, List.mem_cons_self, rfl, pos_of_lt_add_right (hr.trans_lt hlt)⟩, fun hle => ?_⟩
      have hsum : 0 ≤ (l.map p).sum := List.sum_nonneg fun x hx => by
        obtain ⟨k, hk, rfl⟩ := List.mem_map.mp hx
        exact hpl k hk
      exact absurd hlt ((le_add_of_nonneg_right hsum).trans hle).not_gt
    · obtain ⟨hpick, hnone⟩ := ih hpl (not_lt.mp hlt)
      refine ⟨fun h => ?_, hnone⟩
      obtain ⟨i, hi, heq, hpos⟩ := hpick h
      exact ⟨i, List.mem_cons_of_mem j hi, heq, hpos⟩

end Draw

/-! ## The result -/

section Result

variable [IsStrictOrderedRing F] {exp : F → F} {cfg : GenerationConfig F} {logits : List F} {m : ℕ}

theorem softmax_lt_iff (hexp : ∀ x, 0 < exp x) (hmono : StrictMono exp) (i j : ℕ) :
    logits.getD i 0 < logits.getD j 0 ↔ softmax exp cfg logits i < softmax exp cfg logits j := by
  have htemperature : 0 < if 0 < cfg.temperature then cfg.temperature else 1 := by
    split_ifs with h
    · exact h
    · exact one_pos
  rw [softmax, normalize_lt_iff fun k _ => (weights_pos hexp k).le, weights, weights, hmono.lt_iff_lt,
    sub_lt_sub_iff_right, scaled, scaled, div_lt_div_iff_of_pos_right htemperature]

omit [Field F] [IsStrictOrderedRing F] in
/-- No probability is larger than the largest one. -/
theorem amongTopK_of_isFirstMax {n : ℕ} {p : ℕ → F} {topK : ℤ} (h : IsFirstMax p n m) (hpos : 0 < topK) :
    AmongTopK n topK p m := by
  have hzero : ((List.range n).countP fun j => p m < p j) = 0 :=
    List.countP_eq_zero.mpr fun j hj hlt => (of_decide_eq_true hlt).not_ge (h.le j (List.mem_range.mp hj))
  rw [AmongTopK, hzero]
  exact_mod_cast hpos

theorem isFirstMax_afterTopK (hexp : ∀ x, 0 < exp x) (h : IsFirstMax (softmax exp cfg logits) logits.length m) :
    IsFirstMax (afterTopK exp cfg logits) logits.length m := by
  rw [afterTopK, filterTopK]
  split_ifs with hactive
  · have hm := (keepTopK_eq hactive m).1 (amongTopK_of_isFirstMax h hactive.1)
    refine @IsFirstMax.congr _ _ (keepTopK logits.length cfg.topK (softmax exp cfg logits)) _ _ _
      ⟨h.lt, fun j hj => ?_, fun j hj => ?_⟩
      fun i j => (normalize_lt_iff fun k _ => keepTopK_nonneg hexp k).symm
    · rw [hm, keepTopK]
      split_ifs
      · exact softmax_pos hexp m
      · exact h.before j hj
    · rw [hm, keepTopK]
      split_ifs
      · exact (softmax_pos hexp m).le
      · exact h.le j hj
  · exact h

theorem argmax_survives (hexp : ∀ x, 0 < exp x) (hmono : StrictMono exp) (hn : 0 < logits.length) :
    Survives exp cfg logits (argmax logits) := by
  have hfirst : IsFirstMax (softmax exp cfg logits) logits.length (argmax logits) :=
    (leader_isFirstMax _ hn).congr (softmax_lt_iff hexp hmono)
  refine ⟨hfirst.lt, fun hactive => amongTopK_of_isFirstMax hfirst hactive.1, fun hactive => ?_⟩
  have hhead := head?_sort_range (afterTopK exp cfg logits) hn
  rw [(leader_isFirstMax _ hn).unique (isFirstMax_afterTopK hexp hfirst)] at hhead
  obtain ⟨rest, hrest⟩ := List.head?_eq_some_iff.mp hhead
  exact ⟨[], rest, hrest, by rw [List.map_nil, List.sum_nil]; exact hactive.1⟩

/-- The result is a token that has survived, but for draws above all probabilities where token 0 has not. -/
theorem sample_survives_iff (hexp : ∀ x, 0 < exp x) (hmono : StrictMono exp) (hlogits : logits ≠ []) (alloc : Bool)
    {r : F} (hr : 0 ≤ r) :
    MostProbableFirst logits.length (filterTopK logits.length cfg.topK (softmax exp cfg logits))
      (order logits.length (filterTopK logits.length cfg.topK (softmax exp cfg logits))) ∧
    ∃ token, sample exp cfg logits alloc r = some token ∧
      (Survives exp cfg logits token ↔ alloc = false ∨ r < mass exp cfg logits ∨ Survives exp cfg logits 0) := by
  refine ⟨⟨order_perm _ _, pairwise_sort _ _⟩, ?_⟩
  have hn : 0 < logits.length := List.length_pos_iff.mpr hlogits
  rw [sample, if_neg hn.ne']
  cases alloc with
  | false => exact ⟨_, rfl, iff_of_true (argmax_survives hexp hmono hn) (.inl rfl)⟩
  | true =>
    refine ⟨_, rfl, ?_⟩
    have hprobs : ∀ j ∈ List.range logits.length, 0 ≤ afterTopP exp cfg logits j :=
      fun j hj => afterTopP_nonneg hexp (List.mem_range.mp hj)
    obtain ⟨hpick, hnone⟩ := pick_spec hprobs hr
    rw [zero_add, ← total, total_afterTopP hexp] at hpick hnone
    rcases lt_or_ge r (mass exp cfg logits) with hlt | hge
    · obtain ⟨i, hi, heq, hpos⟩ := hpick hlt
      rw [heq]
      exact iff_of_true (survives_of_pos hexp (List.mem_range.mp hi) hpos) (.inr (.inl hlt))
    · rw [hnone hge]
      constructor
      · exact fun h => .inr (.inr h)
      · rintro (h | h | h)
        · cases h
        · exact absurd h hge.not_gt
        · exact h

end Result

def twoLogits (F : Type) [Field F] : List F := [0, 1]

noncomputable def bothFilters : GenerationConfig ℝ := { temperature := 1, topP := 9 / 10, topK := 1 }

theorem sample_survives_iff_exp :
    MostProbableFirst (twoLogits ℝ).length (filterTopK (twoLogits ℝ).length bothFilters.topK
      (softmax Real.exp bothFilters (twoLogits ℝ)))
      (order (twoLogits ℝ).length (filterTopK (twoLogits ℝ).length bothFilters.topK
        (softmax Real.exp bothFilters (twoLogits ℝ)))) ∧
    ∃ token, sample Real.exp bothFilters (twoLogits ℝ) true 0 = some token ∧
      (Survives Real.exp bothFilters (twoLogits ℝ) token ↔ true = false ∨
        0 < mass Real.exp bothFilters (twoLogits ℝ) ∨ Survives Real.exp bothFilters (twoLogits ℝ) 0) :=
  sample_survives_iff Real.exp_pos Real.exp_strictMono (List.cons_ne_nil 0 [1]) true le_rfl

/-- Positive and increasing. -/
def rationalExp (x : ℚ) : ℚ := if x ≤ 0 then 1 / (1 - x) else 1 + x

theorem rationalExp_pos (x : ℚ) : 0 < rationalExp x := by
  rw [rationalExp]
  split_ifs with h
  · exact one_div_pos.mpr (by linarith)
  · linarith

theorem rationalExp_strictMono : StrictMono rationalExp := by
  intro x y hxy
  rw [rationalExp, rationalExp]
  split_ifs with hx hy hy
  · exact one_div_lt_one_div_of_lt (by linarith) (by linarith)
  · calc 1 / (1 - x) ≤ 1 := (div_le_one (by linarith)).mpr (by linarith)
      _ < 1 + y := by linarith
  · linarith
  · linarith

/-- Token 1 alone is kept, but a draw just below one gives token 0. -/
theorem not_survives_draw : (∀ x, 0 < rationalExp x) ∧ StrictMono rationalExp ∧
    sample rationalExp ⟨1, 0, 1⟩ (twoLogits ℚ) true (1 - 1 / 10 ^ 10) = some 0 ∧
    ¬Survives rationalExp ⟨1, 0, 1⟩ (twoLogits ℚ) 0 := by
  refine ⟨rationalExp_pos, rationalExp_strictMono, ?_, fun h => ?_⟩
  · norm_num [twoLogits, sample, pick, filterTopP, TopPActive, filterTopK, TopKActive, normalize, keepTopK, order, sort, rounds,
      sift, softmax, weights, scaled, maxOf, total, eps, rationalExp, List.range, List.range.loop]
  · have hlt : softmax rationalExp ⟨1, 0, 1⟩ (twoLogits ℚ) 0 < softmax rationalExp ⟨1, 0, 1⟩ (twoLogits ℚ) 1 :=
      (softmax_lt_iff rationalExp_pos rationalExp_strictMono 0 1).mp (by norm_num [twoLogits])
    have hcount : ((List.range 2).countP fun j =>
        softmax rationalExp ⟨1, 0, 1⟩ (twoLogits ℚ) 0 < softmax rationalExp ⟨1, 0, 1⟩ (twoLogits ℚ) j) < (1 : ℤ) :=
      h.topK ⟨by decide, by decide⟩
    simp [List.range, List.range.loop, hlt] at hcount

end SneppxAlg.Sampling
