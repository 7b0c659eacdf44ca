import SneppxAlg.Crypto.Dilithium

/-!
# `dilithium.c`: rounding and hints

`Decomposes` says what `dilithium_decompose_scalar` computes: of all ways to write a number modulo
`q` as `r1 * 2 gamma2 + r0`, the one whose `r0` is centred. A hint recovers the high part of a number
from which `hintIn - low part` has been taken, as long as that is within one step: exactly when
`Reaches` holds.
-/

namespace SneppxAlg.Dilithium

/-- The two values of `gamma2`. -/
def IsGamma2 (g : ℤ) : Prop := g = (Q - 1) / 88 ∨ g = (Q - 1) / 32

theorem isGamma2_gamma2Of (variant : ℤ) : IsGamma2 (gamma2Of variant) := by
  unfold gamma2Of
  split
  · exact Or.inl rfl
  · exact Or.inr rfl

/-- The number of high parts: 44 or 16. -/
def highs (g : ℤ) : ℤ := (Q - 1) / (2 * g)

/-- `r1` and `r0` are the high and the low part of `a`. -/
structure Decomposes (g a r1 r0 : ℤ) : Prop where
  nonneg : 0 ≤ r1
  lt : r1 < highs g
  ge : -g ≤ r0
  le : r0 ≤ g
  eq_zero : r0 = -g → r1 = 0
  dvd : Q ∣ a - (r1 * (2 * g) + r0)

theorem IsGamma2.cases {g : ℤ} (hg : IsGamma2 g) :
    (g = 95232 ∧ highs g = 44) ∨ (g = 261888 ∧ highs g = 16) := by
  rcases hg with rfl | rfl
  · exact Or.inl ⟨by norm_num, by norm_num [highs]⟩
  · exact Or.inr ⟨by norm_num, by norm_num [highs]⟩

theorem Decomposes.range {g a r1 r0 : ℤ} (hg : IsGamma2 g) (h : Decomposes g a r1 r0) :
    -g ≤ r1 * (2 * g) + r0 ∧ r1 * (2 * g) + r0 < 8380417 - g := by
  obtain ⟨hn, hlt, hge, hle, -, -⟩ := h
  rcases hg.cases with ⟨rfl, hm⟩ | ⟨rfl, hm⟩ <;> rw [hm] at hlt <;> omega

theorem Decomposes.unique {g a r1 r0 r1' r0' : ℤ} (hg : IsGamma2 g) (h : Decomposes g a r1 r0)
    (h' : Decomposes g a r1' r0') : r1 = r1' ∧ r0 = r0' := by
  have hsame : r1 * (2 * g) + r0 = r1' * (2 * g) + r0' := by
    -- both are in an interval of `q` numbers
    have hrange := h.range hg
    have hrange' := h'.range hg
    obtain ⟨c, hc⟩ := h.dvd
    obtain ⟨c', hc'⟩ := h'.dvd
    simp only [Q] at hc hc'
    generalize r1 * (2 * g) + r0 = v at *
    generalize r1' * (2 * g) + r0' = v' at *
    have hcc : c = c' := by omega
    omega
  obtain ⟨hn, -, hge, hle, hz, -⟩ := h
  obtain ⟨hn', -, hge', hle', hz', -⟩ := h'
  have hr1 : r1 = r1' := by
    rcases hg.cases with ⟨rfl, -⟩ | ⟨rfl, -⟩ <;> omega
  refine ⟨hr1, ?_⟩
  subst hr1
  omega

theorem cmod_eq (a : ℤ) : (if a.tmod Q < 0 then a.tmod Q + Q else a.tmod Q) = a % Q := by
  have hpos := Int.emod_nonneg a (show Q ≠ 0 by norm_num)
  have hlt := Int.emod_lt_of_pos a (show 0 < Q by norm_num)
  rw [Int.tmod_eq_emod]
  split_ifs <;> norm_num at * <;> omega

/-- `dilithium_decompose_scalar` on a reduced number. -/
theorem decomposeScalar_eq (a g : ℤ) :
    decomposeScalar a g =
      let r := a % Q
      let r0 := if r % (2 * g) > g then r % (2 * g) - 2 * g else r % (2 * g)
      if r - r0 = Q - 1 then (0, r0 - 1) else ((r - r0) / (2 * g), r0) := by
  have hpos := Int.emod_nonneg a (show Q ≠ 0 by norm_num)
  have hhalf : (2 * g).tdiv 2 = g := Int.mul_tdiv_cancel_left g two_ne_zero
  unfold decomposeScalar
  dsimp only
  rw [cmod_eq, Int.tmod_eq_emod_of_nonneg hpos, hhalf]
  have hdvd : 2 * g ∣ a % Q -
      (if a % Q % (2 * g) > g then a % Q % (2 * g) - 2 * g else a % Q % (2 * g)) := by
    have hself := Int.dvd_self_sub_emod (x := a % Q) (m := 2 * g)
    split
    · rw [← sub_add]
      exact dvd_add hself dvd_rfl
    · exact hself
  rw [Int.tdiv_eq_ediv_of_dvd hdvd]

theorem decomposeScalar_spec {g : ℤ} (hg : IsGamma2 g) (a : ℤ) :
    Decomposes g a (decomposeScalar a g).1 (decomposeScalar a g).2 := by
  have hpos := Int.emod_nonneg a (show Q ≠ 0 by norm_num)
  have hlt := Int.emod_lt_of_pos a (show 0 < Q by norm_num)
  have hdiv := Int.emod_add_mul_ediv a Q
  rw [decomposeScalar_eq]
  dsimp only
  simp only [Q] at *
  generalize a % 8380417 = r at *
  generalize a / 8380417 = c at *
  have hsum := Int.emod_add_mul_ediv r (2 * g)
  rcases hg.cases with ⟨rfl, hm⟩ | ⟨rfl, hm⟩
  all_goals
    split_ifs
    all_goals
      dsimp only
      refine ⟨by omega, by omega, by omega, by omega, by omega, ?_⟩
      change (8380417 : ℤ) ∣ _
      omega

theorem decomposeScalar_of_decomposes {g a r1 r0 : ℤ} (hg : IsGamma2 g) (h : Decomposes g a r1 r0) :
    decomposeScalar a g = (r1, r0) := by
  obtain ⟨h1, h0⟩ := (decomposeScalar_spec hg a).unique hg h
  exact Prod.ext h1 h0

/-- A number that was rounded to `w1` and whose low part has grown to `a` is within the reach of one
hint. -/
def Reaches (g w1 a : ℤ) : Prop :=
  (a ≤ 2 * g ∨ (w1 = highs g - 1 ∧ a = 2 * g + 1)) ∧ (-(2 * g) < a ∨ (w1 = 0 ∧ a = -(2 * g)))

/-- The neighbour of a high part that a hint points to. -/
def neighbour (g r1 r0 : ℤ) : ℤ :=
  if r0 > 0 then (if r1 = highs g - 1 then 0 else r1 + 1)
  else if r1 = 0 then highs g - 1 else r1 - 1

theorem useHintScalar_eq {g r r1 r0 : ℤ} (hg : IsGamma2 g) (h : Decomposes g r r1 r0) (hint : ℤ) :
    useHintScalar r hint g = if hint = 0 then r1 else neighbour g r1 r0 := by
  have hn := h.nonneg
  have hlt := h.lt
  rw [useHintScalar, decomposeScalar_of_decomposes hg h]
  dsimp only
  rcases hg.cases with ⟨rfl, hm⟩ | ⟨rfl, hm⟩
  · rw [if_neg (show ¬ (95232 : ℤ) = (Q - 1) / 32 by norm_num), neighbour, hm]
    rfl
  · rw [if_pos (show (261888 : ℤ) = (Q - 1) / 32 by norm_num), neighbour, hm]
    rw [hm] at hlt
    split_ifs <;> omega

theorem useHintScalar_range {g : ℤ} (hg : IsGamma2 g) (r hint : ℤ) :
    0 ≤ useHintScalar r hint g ∧ useHintScalar r hint g < highs g := by
  have h := decomposeScalar_spec hg r
  have hn := h.nonneg
  have hlt := h.lt
  have hm : 0 < highs g := by omega
  rw [useHintScalar_eq hg h, neighbour]
  split_ifs <;> omega

theorem dvd_congr_add {r v v' c : ℤ} (h : Q ∣ r - v) (hv : v - v' = Q * c) : Q ∣ r - v' := by
  have hsum : r - v' = r - v + Q * c := by
    rw [← hv]
    ring
  rw [hsum]
  exact dvd_add h (dvd_mul_right _ _)

/-- The number in question, decomposed: its high part is `w1` or one of the neighbours of `w1`. -/
theorem decomposes_shifted {g w1 a r : ℤ} (hg : IsGamma2 g) (h0 : 0 ≤ w1) (hlt : w1 < highs g)
    (ha : |a| < 3 * g) (hr : Q ∣ r - (w1 * (2 * g) + a)) :
    (-g ≤ a → a ≤ g → (a = -g → w1 = 0) → Decomposes g r w1 a) ∧
      (g < a → w1 + 1 < highs g → Decomposes g r (w1 + 1) (a - 2 * g)) ∧
      (g < a → w1 + 1 = highs g → Decomposes g r 0 (a - 2 * g - 1)) ∧
      (a ≤ -g → 0 < w1 → Decomposes g r (w1 - 1) (a + 2 * g)) ∧
      (a < -g → w1 = 0 → Decomposes g r (highs g - 1) (a + 2 * g + 1)) := by
  obtain ⟨ha1, ha2⟩ := abs_lt.mp ha
  have hm : 0 < highs g ∧ 0 < g ∧ highs g * (2 * g) = Q - 1 := by
    rcases hg.cases with ⟨rfl, hm⟩ | ⟨rfl, hm⟩ <;> rw [hm] <;> norm_num
  obtain ⟨hm0, hg0, hmg⟩ := hm
  refine ⟨fun h1 h2 h3 => ⟨h0, hlt, h1, h2, h3, hr⟩, fun h1 h2 => ?_, fun h1 h2 => ?_,
    fun h1 h2 => ?_, fun h1 h2 => ?_⟩
  · exact ⟨by omega, h2, by omega, by omega, by omega,
      dvd_congr_add (c := 0) hr (by ring)⟩
  · refine ⟨le_rfl, hm0, by omega, by omega, fun _ => rfl, dvd_congr_add (c := 1) hr ?_⟩
    have hw : w1 = highs g - 1 := by omega
    rw [hw, sub_mul, hmg]
    ring
  · exact ⟨by omega, by omega, by omega, by omega, by omega,
      dvd_congr_add (c := 0) hr (by ring)⟩
  · refine ⟨by omega, by omega, by omega, by omega, by omega, dvd_congr_add (c := -1) hr ?_⟩
    rw [h2, sub_mul, hmg]
    ring

/-- The hint recovers the high part exactly when it is within reach. -/
theorem useHintScalar_makeHintScalar {g w1 a r : ℤ} (hg : IsGamma2 g) (h0 : 0 ≤ w1)
    (hlt : w1 < highs g) (ha : |a| < 3 * g) (hr : Q ∣ r - (w1 * (2 * g) + a)) :
    useHintScalar r (makeHintScalar a w1 g) g = w1 ↔ Reaches g w1 a := by
  obtain ⟨hsame, hup, htop, hdown, hbottom⟩ := decomposes_shifted hg h0 hlt ha hr
  obtain ⟨ha1, ha2⟩ := abs_lt.mp ha
  have hm : 2 < highs g ∧ 0 < g := by
    rcases hg.cases with ⟨rfl, hm⟩ | ⟨rfl, hm⟩ <;> rw [hm] <;> norm_num
  unfold makeHintScalar Reaches
  by_cases hhint : a > g ∨ a < -g ∨ (a = -g ∧ w1 ≠ 0)
  · rw [if_pos hhint]
    rcases hhint with h | h
    · rcases lt_or_eq_of_le (Int.add_one_le_of_lt hlt) with hw | hw
      · rw [useHintScalar_eq hg (hup h hw), if_neg one_ne_zero, neighbour]
        split_ifs <;> omega
      · rw [useHintScalar_eq hg (htop h hw), if_neg one_ne_zero, neighbour]
        split_ifs <;> omega
    · rcases lt_or_eq_of_le h0 with hw | hw
      · rw [useHintScalar_eq hg (hdown (by omega) hw), if_neg one_ne_zero, neighbour]
        split_ifs <;> omega
      · rw [useHintScalar_eq hg (hbottom (by omega) hw.symm), if_neg one_ne_zero, neighbour]
        split_ifs <;> omega
  · rw [if_neg hhint]
    push Not at hhint
    rw [useHintScalar_eq hg (hsame (by omega) (by omega) (by omega)), if_pos rfl]
    omega

end SneppxAlg.Dilithium
