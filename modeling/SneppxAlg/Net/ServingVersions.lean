import SneppxAlg.Lib.WeightedChoice
import SneppxAlg.Net.ServingEngine

/-!
# `serving_engine.c`: versions, weights and the traffic split

A valid model has distinct version ids, weights from 0 to 100 and an active version
(`Model.Valid`). `set_active_version`, `rollback` and `set_weight` keep models valid. `register_model`
looks for the id it is given but stores at most 63 bytes of it, so two long ids can be stored as one;
`config_reload` stores any weight that is not negative. The other runs keep all models valid
(`adminRun_routes`), and then the router splits the hashes by the weights (`routeIndex_of_pos`).
-/

namespace SneppxAlg.Serving

open Lib.WeightedChoice

/-! ## Valid models -/

/-- The ids of the versions of a model. -/
def Model.ids (m : Model) : List Str := m.versions.map Version.versionId

/-- What the registry keeps of every model. -/
structure Model.Valid (m : Model) : Prop where
  active_lt : m.active < m.versions.length
  length_le : m.versions.length ≤ maxVersions
  nodup : m.ids.Nodup
  short : ∀ s ∈ m.ids, s.length < maxIdLen
  weights : ∀ v ∈ m.versions, 0 ≤ v.weight ∧ v.weight ≤ 100

def Engine.Valid (e : Engine) : Prop := ∀ m ∈ e.models, m.Valid

section

variable {e : Engine} {m : Model}

theorem mem_modify {α : Type*} {l : List α} {i : ℕ} {f : α → α} {x : α} (h : x ∈ l.modify i f) :
    x ∈ l ∨ ∃ y, l[i]? = some y ∧ x = f y := by
  obtain ⟨j, hj⟩ := List.mem_iff_getElem?.mp h
  rw [List.getElem?_modify] at hj
  obtain ⟨y, hy, hx⟩ := Option.map_eq_some_iff.mp hj
  by_cases hij : i = j
  · subst hij
    rw [if_pos rfl] at hx
    exact Or.inr ⟨y, hy, hx.symm⟩
  · rw [if_neg hij] at hx
    exact Or.inl (hx ▸ List.mem_of_getElem? hy)

theorem Engine.Valid.modifyModel (h : e.Valid) {i : ℕ} {f : Model → Model}
    (hf : ∀ m, e.models[i]? = some m → m.Valid → (f m).Valid) : (modifyModel e i f).Valid := by
  intro m hm
  rcases mem_modify hm with hm | ⟨y, hy, rfl⟩
  · exact h m hm
  · exact hf y hy (h y (List.mem_of_getElem? hy))

theorem ids_promote (m : Model) (i : ℕ) : (m.promote i).ids = m.ids := by
  apply List.ext_getElem
  · simp [Model.ids, Model.promote]
  · intro j h1 h2
    simp [Model.ids, Model.promote]

theorem Model.Valid.promote (h : m.Valid) {i : ℕ} (hi : i < m.versions.length) :
    (m.promote i).Valid := by
  refine ⟨?_, ?_, ?_, ?_, ?_⟩
  · simpa [Model.promote] using hi
  · simpa [Model.promote] using h.length_le
  · rw [ids_promote]
    exact h.nodup
  · rw [ids_promote]
    exact h.short
  · intro v hv
    simp only [Model.promote, List.mem_mapIdx] at hv
    obtain ⟨j, hj, rfl⟩ := hv
    dsimp only
    split <;> norm_num

theorem ids_withWeight (m : Model) (j : ℕ) (w : ℤ) : (m.withWeight j w).ids = m.ids := by
  apply List.ext_getElem
  · simp [Model.ids, Model.withWeight]
  · intro k h1 h2
    simp only [Model.ids, Model.withWeight, List.getElem_map, List.getElem_modify]
    split <;> rfl

theorem Model.Valid.withWeight (h : m.Valid) (j : ℕ) {w : ℤ} (h0 : 0 ≤ w) (h100 : w ≤ 100) :
    (m.withWeight j w).Valid := by
  refine ⟨?_, ?_, ?_, ?_, ?_⟩
  · simpa [Model.withWeight] using h.active_lt
  · simpa [Model.withWeight] using h.length_le
  · rw [ids_withWeight]
    exact h.nodup
  · rw [ids_withWeight]
    exact h.short
  · intro v hv
    rcases mem_modify hv with hv | ⟨y, -, rfl⟩
    · exact h.weights v hv
    · exact ⟨h0, h100⟩

theorem Model.Valid.rollback (h : m.Valid) (h2 : 2 ≤ m.versions.length) : m.rollback.Valid := by
  have hlen : m.versions.dropLast.length = m.versions.length - 1 := List.length_dropLast
  set i := if m.active ≥ m.versions.dropLast.length then 0 else m.active with hi
  have hlt : i < m.versions.dropLast.length := by
    rw [hi]
    split <;> omega
  have hvalid : ({ m with active := i, versions := m.versions.dropLast } : Model).Valid := by
    refine ⟨hlt, ?_, ?_, ?_, ?_⟩
    · have := h.length_le
      dsimp only
      omega
    · rw [Model.ids, List.map_dropLast]
      exact h.nodup.sublist (List.dropLast_sublist _)
    · intro s hs
      rw [Model.ids, List.map_dropLast] at hs
      exact h.short s (List.mem_of_mem_dropLast hs)
    · intro v hv
      exact h.weights v (List.mem_of_mem_dropLast hv)
  exact hvalid.promote hlt

theorem setStr_length_lt (s : Str) : (setStr maxIdLen s).length < maxIdLen := by
  rw [setStr, List.length_take]
  simp only [maxIdLen]
  omega

/-- The truncated id is not yet an id of the model, or it is not truncated, or the model is full. -/
def Model.Admits (m : Model) (versionId : Str) : Prop :=
  m.versions.length ≥ maxVersions ∨ versionId.length < maxIdLen ∨ setStr maxIdLen versionId ∉ m.ids

theorem versionIndex_eq_none_iff {versionId : Str} :
    (versionIndex m versionId).isSome = false ↔ versionId ∉ m.ids := by
  simp [versionIndex, Model.ids]

theorem addVersion_eq_some {versionId description : Str} {now : ℤ} {m' : Model}
    (h : m.addVersion versionId description now = some m') :
    m.versions.length < maxVersions ∧ versionId ∉ m.ids ∧
      ∃ v : Version, v.versionId = setStr maxIdLen versionId ∧ (v.weight = 0 ∨ v.weight = 100) ∧
        m'.versions = m.versions ++ [v] ∧ m'.active = if m.versions.length + 1 = 1 then 0 else m.active := by
  unfold Model.addVersion at h
  split_ifs at h with hfull hsome <;> obtain rfl := Option.some.inj h
  all_goals refine ⟨not_le.mp hfull, versionIndex_eq_none_iff.mp (Bool.not_eq_true _ ▸ hsome), ?_⟩
  · exact ⟨_, rfl, Or.inr rfl, rfl, (if_pos ‹_›).symm⟩
  · exact ⟨_, rfl, Or.inl rfl, rfl, (if_neg ‹_›).symm⟩

theorem addVersion_valid {versionId description : Str} {now : ℤ} {m' : Model}
    (hm : m.Valid ∨ m.versions = []) (hadm : m.Admits versionId)
    (h : m.addVersion versionId description now = some m') : m'.Valid := by
  obtain ⟨hlen, hnew, v, hid, hw, hversions, hactive⟩ := addVersion_eq_some h
  have hfresh : setStr maxIdLen versionId ∉ m.ids := by
    rcases hadm with h | h | h
    · omega
    · rwa [setStr, List.take_of_length_le (by omega)]
    · exact h
  have hids : m'.ids = m.ids ++ [setStr maxIdLen versionId] := by
    rw [Model.ids, hversions, List.map_append, ← hid]
    rfl
  have hold : m.ids.Nodup ∧ (∀ s ∈ m.ids, s.length < maxIdLen) ∧
      ∀ v ∈ m.versions, 0 ≤ v.weight ∧ v.weight ≤ 100 := by
    rcases hm with hm | hm
    · exact ⟨hm.nodup, hm.short, hm.weights⟩
    · simp [Model.ids, hm]
  refine ⟨?_, ?_, ?_, ?_, ?_⟩
  · rw [hactive, hversions, List.length_append, List.length_singleton]
    split
    · omega
    · rename_i hne
      have hlt := (hm.resolve_right fun hnil => hne (by simp [hnil])).active_lt
      omega
  · rw [hversions, List.length_append, List.length_singleton]
    omega
  · rw [hids, List.nodup_append]
    refine ⟨hold.1, List.nodup_singleton _, ?_⟩
    intro a ha b hb hab
    rw [List.mem_singleton] at hb
    exact hfresh (hb ▸ hab ▸ ha)
  · intro s hs
    rw [hids] at hs
    rcases List.mem_append.mp hs with hs | hs
    · exact hold.2.1 s hs
    · rw [List.mem_singleton.mp hs]
      exact setStr_length_lt versionId
  · intro u hu
    rw [hversions] at hu
    rcases List.mem_append.mp hu with hu | hu
    · exact hold.2.2 u hu
    · rw [List.mem_singleton.mp hu]
      rcases hw with hw | hw <;> rw [hw] <;> norm_num

/-! ## Operations -/

def lookup (e : Engine) (name : Str) : Option Model := (modelIndex e name).bind fun i => e.models[i]?

theorem Engine.Valid.lookup (h : e.Valid) {name : Str} (hm : lookup e name = some m) : m.Valid := by
  obtain ⟨i, -, hi⟩ := Option.bind_eq_some_iff.mp hm
  exact h m (List.mem_of_getElem? hi)

theorem registerModel_valid (h : e.Valid) {name versionId description : Str} {now : ℤ}
    (hadm : ∀ m, lookup e name = some m → m.Admits versionId) :
    (registerModel e name versionId description now).2.Valid := by
  unfold registerModel
  cases hi : modelIndex e name with
  | some i =>
    dsimp only
    split
    · rename_i m' hadd
      obtain ⟨m, hm, hadd⟩ := Option.bind_eq_some_iff.mp hadd
      have hlookup : Serving.lookup e name = some m := by
        rw [Serving.lookup, hi]
        exact hm
      exact h.modifyModel fun _ _ _ =>
        addVersion_valid (Or.inl (h.lookup hlookup)) (hadm m hlookup) hadd
    · exact h
  | none =>
    dsimp only
    split
    · exact h
    · split
      · rename_i m' hadd
        intro m hm
        rcases List.mem_append.mp hm with hm | hm
        · exact h m hm
        · rw [List.mem_singleton.mp hm]
          refine addVersion_valid (Or.inr rfl) (Or.inr (Or.inr ?_)) hadd
          exact List.not_mem_nil
      · -- a model without versions takes its first one
        rename_i hadd
        exact absurd hadd (by simp [Model.addVersion, maxVersions, versionIndex])

theorem onVersion_valid (h : e.Valid) {name versionId : Str} {f : ℕ → Model → Model}
    (hf : ∀ m j, j < m.versions.length → m.Valid → (f j m).Valid) :
    (onVersion e name versionId f).2.Valid := by
  unfold onVersion
  split
  · exact h
  · split
    · exact h
    · rename_i i hi j hj
      obtain ⟨m, hm, hj⟩ := Option.bind_eq_some_iff.mp hj
      obtain ⟨hlt, -⟩ := List.findIdx?_eq_some_iff_getElem.mp hj
      refine h.modifyModel fun m' hm' hvalid => ?_
      obtain rfl : m = m' := Option.some.inj (hm.symm.trans hm')
      exact hf m j hlt hvalid

theorem setActiveVersion_valid (h : e.Valid) (name versionId : Str) :
    (setActiveVersion e name versionId).2.Valid :=
  onVersion_valid h fun _ _ hj hm => hm.promote hj

theorem setWeight_valid (h : e.Valid) (name versionId : Str) (weight : ℤ) :
    (setWeight e name versionId weight).2.Valid := by
  refine onVersion_valid h fun m j _ hm => hm.withWeight j ?_ ?_
  · split_ifs <;> omega
  · split_ifs <;> omega

theorem rollback_valid (h : e.Valid) (name : Str) : (rollback e name).2.Valid := by
  unfold rollback
  split
  · exact h
  · split
    · exact h
    · rename_i i hi m hm
      split
      · exact h
      · rename_i h2
        refine h.modifyModel fun m' hm' hvalid => ?_
        obtain rfl : m = m' := Option.some.inj (hm.symm.trans hm')
        exact hvalid.rollback (not_lt.mp h2)

/-- A line sets no weight of a known model above 100. -/
def Setting.Moderate (names : List Str) : Setting → Prop
  | .canary name weight => name ∈ names → weight ≤ 100
  | _ => True

theorem names_applySetting (e : Engine) (s : Setting) :
    (applySetting e s).1.models.map Model.name = e.models.map Model.name := by
  cases s with
  | canary name weight =>
    simp only [applySetting]
    split
    · rfl
    · split
      · apply List.ext_getElem
        · simp [modifyModel]
        · intro k h1 h2
          simp only [modifyModel, List.getElem_map, List.getElem_modify]
          split <;> rfl
      · rfl
  | _ => rfl

theorem applySetting_valid (h : e.Valid) {s : Setting}
    (hs : s.Moderate (e.models.map Model.name)) : (applySetting e s).1.Valid := by
  cases s with
  | canary name weight =>
    simp only [applySetting]
    split
    · exact h
    · rename_i i hi
      split
      · rename_i h0
        have hname : name ∈ e.models.map Model.name := by
          obtain ⟨hlt, hname, -⟩ := List.findIdx?_eq_some_iff_getElem.mp hi
          rw [← eq_of_beq hname]
          exact List.mem_map_of_mem (List.getElem_mem hlt)
        exact h.modifyModel fun m _ hm => hm.withWeight _ h0 (hs hname)
      · exact h
  | _ => exact h

/-- The lines of a file fit into the buffers, and set moderate weights. -/
def LinesFit (names : List Str) (lines : List Str) : Prop :=
  ∀ line ∈ lines, ∃ s, parseLine line = some s ∧ s.Moderate names

theorem reloadLoop_valid (h : e.Valid) {lines : List Str}
    (hlines : LinesFit (e.models.map Model.name) lines) (changed : Bool) :
    ∃ e' changed', reloadLoop lines e changed = some (e', changed') ∧ e'.Valid := by
  induction lines generalizing e changed with
  | nil => exact ⟨e, changed, rfl, h⟩
  | cons line lines ih =>
    unfold LinesFit at hlines
    rw [List.forall_mem_cons] at hlines
    obtain ⟨⟨s, hparse, hs⟩, hrest⟩ := hlines
    rw [← names_applySetting e s] at hrest
    obtain ⟨e', changed', hloop, hvalid⟩ := ih (applySetting_valid h hs) hrest _
    refine ⟨e', changed', ?_, hvalid⟩
    rw [reloadLoop, hparse]
    exact hloop

/-- The file is read, and its lines fit. -/
def ReloadFits (e : Engine) (mtime : ℤ) (content : Option Str) : Prop :=
  e.configPath ≠ [] → mtime ≠ 0 → mtime ≠ e.configMtime →
    ∀ bytes, content = some bytes → LinesFit (e.models.map Model.name) (fgetsLines bytes [])

theorem configReload_valid (h : e.Valid) {mtime : ℤ} {content : Option Str}
    (hfit : ReloadFits e mtime content) :
    ∃ r e', configReload e mtime content = some (r, e') ∧ e'.Valid := by
  unfold configReload
  split_ifs with h1 h2 h3
  · exact ⟨_, _, rfl, h⟩
  · exact ⟨_, _, rfl, h⟩
  · exact ⟨_, _, rfl, h⟩
  · cases content with
    | none => exact ⟨_, _, rfl, h⟩
    | some bytes =>
      have hlines := hfit h1 h2 h3 bytes rfl
      have h' : ({ e with configMtime := mtime } : Engine).Valid := h
      obtain ⟨e', changed', hloop, hvalid⟩ := reloadLoop_valid h' hlines false
      dsimp only
      rw [hloop]
      exact ⟨_, _, rfl, hvalid⟩

/-! ## Routing -/

def Model.weights (m : Model) : List ℕ := m.versions.map fun v => v.weight.toNat

/-- Weights whose sums stay far from overflowing. -/
def Bounded (vs : List Version) (cum : ℕ) : Prop :=
  (∀ v ∈ vs, 0 ≤ v.weight ∧ v.weight ≤ 100) ∧ cum + 100 * vs.length < 2 ^ 31

theorem Bounded.head {v : Version} {vs : List Version} {cum : ℕ} (h : Bounded (v :: vs) cum) :
    (v.weight.toNat : ℤ) = v.weight ∧ addInt cum v.weight = some ((cum + v.weight.toNat : ℕ) : ℤ) ∧
      Bounded vs (cum + v.weight.toNat) := by
  obtain ⟨hw, hsum⟩ := h
  rw [List.forall_mem_cons] at hw
  rw [List.length_cons] at hsum
  obtain ⟨⟨h0, h100⟩, hrest⟩ := hw
  have hnat := Int.toNat_of_nonneg h0
  refine ⟨hnat, ?_, hrest, by omega⟩
  rw [addInt, if_pos (by norm_num at *; omega), Nat.cast_add, hnat]

theorem foldlM_addInt {vs : List Version} {cum : ℕ} (h : Bounded vs cum) :
    vs.foldlM (fun (total : ℤ) v => addInt total v.weight) (cum : ℤ) =
      some ((cum + (vs.map fun v => v.weight.toNat).sum : ℕ) : ℤ) := by
  induction vs generalizing cum with
  | nil => simp
  | cons v vs ih =>
    obtain ⟨-, hadd, hrest⟩ := h.head
    rw [List.foldlM_cons, hadd, Option.bind_eq_bind, Option.bind_some, ih hrest, List.map_cons,
      List.sum_cons, Nat.add_assoc]

/-- The loop finds the version in whose share the residue falls. -/
theorem routeLoop_eq {vs : List Version} {cum r : ℕ} (h : Bounded vs cum) (hr : cum ≤ r) (i : ℕ) :
    routeLoop ((r : ℤ) + 1) vs i cum =
      some ((pickIndex (r - cum) (vs.map fun v => v.weight.toNat)).map (i + ·)) := by
  induction vs generalizing cum i with
  | nil => rfl
  | cons v vs ih =>
    obtain ⟨hnat, hadd, hrest⟩ := h.head
    rw [routeLoop, hadd, Option.bind_eq_bind, Option.bind_some, List.map_cons, pickIndex]
    by_cases hlt : r - cum < v.weight.toNat
    · rw [if_pos (by push_cast; omega), if_pos hlt]
      rfl
    · rw [if_neg (by push_cast; omega), if_neg hlt, ih hrest (by omega), Option.map_map,
        Nat.sub_add_eq]
      congr 2
      funext k
      simp only [Function.comp_apply]
      omega

theorem Model.Valid.bounded (h : m.Valid) : Bounded m.versions 0 := by
  have hlen := h.length_le
  refine ⟨h.weights, ?_⟩
  simp only [maxVersions] at hlen
  omega

/-- With a positive sum of weights, the residue of the hash chooses the version. -/
theorem routeIndex_of_pos (hm : m.Valid) (hpos : 0 < m.weights.sum) (h : UInt64) :
    routeIndex m h = pickIndex (h.toNat % m.weights.sum) m.weights := by
  have htotal := foldlM_addInt hm.bounded
  have hlt : h.toNat % m.weights.sum < m.weights.sum := Nat.mod_lt _ hpos
  obtain ⟨i, -, hpick⟩ := exists_pickIndex hlt
  have hloop := routeLoop_eq hm.bounded (Nat.zero_le (h.toNat % m.weights.sum)) 0
  rw [Nat.zero_add, Nat.cast_zero] at htotal
  simp only [Nat.cast_zero, Nat.sub_zero, zero_add, Option.map_id'] at hloop
  unfold routeIndex
  rw [htotal, Option.bind_eq_bind, Option.bind_some]
  dsimp only
  rw [if_neg (by exact_mod_cast not_le.mpr hpos)]
  rw [Int.natCast_mod] at hloop
  unfold Model.weights at hpick hloop ⊢
  rw [hloop, Option.bind_eq_bind, Option.bind_some, hpick]
  rfl

theorem routeIndex_of_zero (hm : m.Valid) (hzero : m.weights.sum = 0) (h : UInt64) :
    routeIndex m h = some m.active := by
  have htotal := foldlM_addInt hm.bounded
  rw [Nat.zero_add, Nat.cast_zero] at htotal
  unfold Model.weights at hzero
  unfold routeIndex
  rw [htotal, hzero]
  rfl

/-- The router follows the weights of a model. -/
structure Model.Splits (m : Model) : Prop where
  /-- Each version has as many residues as its weight says. -/
  ncard : 0 < m.weights.sum → ∀ i (hi : i < m.versions.length),
    (Set.ncard {r | r < m.weights.sum ∧
      ∀ h : UInt64, h.toNat % m.weights.sum = r → routeIndex m h = some i} : ℤ) = m.versions[i].weight
  /-- Without any weight all requests go to the active version. -/
  active : m.weights.sum = 0 → ∀ h, routeIndex m h = some m.active

theorem sum_weights_lt (hm : m.Valid) : m.weights.sum < 2 ^ 64 := by
  have hle : m.weights.sum ≤ m.weights.length * 100 := by
    apply List.sum_le_card_nsmul
    intro w hw
    obtain ⟨v, hv, rfl⟩ := List.mem_map.mp hw
    have := hm.weights v hv
    omega
  have hlen := hm.length_le
  simp only [maxVersions, Model.weights, List.length_map] at hle hlen
  unfold Model.weights
  omega

theorem Model.Valid.splits (hm : m.Valid) : m.Splits where
  ncard := by
    intro hpos i hi
    have hset : {r | r < m.weights.sum ∧
        ∀ h : UInt64, h.toNat % m.weights.sum = r → routeIndex m h = some i} =
        ((Finset.range m.weights.sum).filter fun r => pickIndex r m.weights = some i : Finset ℕ) := by
      ext r
      simp only [Set.mem_ofPred_eq, Finset.coe_filter, Finset.mem_range]
      refine and_congr_right fun hr => ⟨fun h => ?_, fun h x hx => ?_⟩
      · -- the residue itself is a hash
        have hnat : (UInt64.ofNat r).toNat = r :=
          UInt64.toNat_ofNat_of_lt' (hr.trans (sum_weights_lt hm))
        have hmod : (UInt64.ofNat r).toNat % m.weights.sum = r := by
          rw [hnat, Nat.mod_eq_of_lt hr]
        have := h _ hmod
        rwa [routeIndex_of_pos hm hpos, hmod] at this
      · rw [routeIndex_of_pos hm hpos, hx, h]
    have hi' : i < m.weights.length := by simpa [Model.weights] using hi
    rw [hset, Set.ncard_coe_finset, card_pickIndex hi']
    simp only [Model.weights, List.getElem_map]
    exact Int.toNat_of_nonneg (hm.weights _ (List.getElem_mem hi)).1
  active := fun hzero h => routeIndex_of_zero hm hzero h

/-- `route` returns the id of the version selected. -/
theorem route_eq (hm : m.Valid) {name : Str} (hl : lookup e name = some m) (requestId : Option Str) :
    ∃ i v, routeIndex m (fnv1a64 (requestId.getD [48])) = some i ∧ m.versions[i]? = some v ∧
      route e name requestId = some (0, some v.versionId) := by
  obtain ⟨i, hi, hidx⟩ : ∃ i < m.versions.length,
      routeIndex m (fnv1a64 (requestId.getD [48])) = some i := by
    rcases Nat.eq_zero_or_pos m.weights.sum with hzero | hpos
    · exact ⟨m.active, hm.active_lt, routeIndex_of_zero hm hzero _⟩
    · have hlt : (fnv1a64 (requestId.getD [48])).toNat % m.weights.sum < m.weights.sum :=
        Nat.mod_lt _ hpos
      obtain ⟨i, hi, hpick⟩ := exists_pickIndex hlt
      refine ⟨i, by simpa [Model.weights] using hi, ?_⟩
      rw [routeIndex_of_pos hm hpos, hpick]
  have hv := List.getElem?_eq_getElem hi
  have hshort := hm.short _ (List.mem_map_of_mem (List.getElem_mem hi))
  refine ⟨i, _, hidx, hv, ?_⟩
  unfold route
  unfold lookup at hl
  rw [hl]
  dsimp only
  rw [hidx, Option.bind_eq_bind, Option.bind_some, hv, Option.bind_eq_bind, Option.bind_some, setStr,
    List.take_of_length_le (by omega)]

/-! ## Runs -/

/-- A call that changes the registry. -/
inductive AdminOp where
  | registerModel (name versionId description : Str) (now : ℤ)
  | setActiveVersion (name versionId : Str)
  | rollback (name : Str)
  | setWeight (name versionId : Str) (weight : ℤ)
  | configReload (mtime : ℤ) (content : Option Str)

/-- The engine after a call. -/
def AdminOp.step (e : Engine) : AdminOp → Option Engine
  | .registerModel name versionId description now =>
    some (Serving.registerModel e name versionId description now).2
  | .setActiveVersion name versionId => some (Serving.setActiveVersion e name versionId).2
  | .rollback name => some (Serving.rollback e name).2
  | .setWeight name versionId weight => some (Serving.setWeight e name versionId weight).2
  | .configReload mtime content => (Serving.configReload e mtime content).map Prod.snd

/-- The engine after a sequence of calls. -/
def adminRun : Engine → List AdminOp → Option Engine
  | e, [] => some e
  | e, op :: ops => (op.step e).bind fun e => adminRun e ops

/-- A call stores no id that another version has once it is truncated, and no weight above 100. -/
def AdminOp.Fits (e : Engine) : AdminOp → Prop
  | .registerModel name versionId _ _ => ∀ m, lookup e name = some m → m.Admits versionId
  | .configReload mtime content => ReloadFits e mtime content
  | _ => True

/-- All calls of a run do. -/
def AdminFits : Engine → List AdminOp → Prop
  | _, [] => True
  | e, op :: ops => op.Fits e ∧ ∀ e', op.step e = some e' → AdminFits e' ops

theorem step_valid (h : e.Valid) {op : AdminOp} (hfit : op.Fits e) :
    ∃ e', op.step e = some e' ∧ e'.Valid := by
  cases op with
  | registerModel name versionId description now => exact ⟨_, rfl, registerModel_valid h hfit⟩
  | setActiveVersion name versionId => exact ⟨_, rfl, setActiveVersion_valid h name versionId⟩
  | rollback name => exact ⟨_, rfl, rollback_valid h name⟩
  | setWeight name versionId weight => exact ⟨_, rfl, setWeight_valid h name versionId weight⟩
  | configReload mtime content =>
    obtain ⟨r, e', heq, hvalid⟩ := configReload_valid h hfit
    exact ⟨e', by rw [AdminOp.step, heq]; rfl, hvalid⟩

theorem adminRun_valid (h : e.Valid) {ops : List AdminOp} (hfit : AdminFits e ops) :
    ∃ e', adminRun e ops = some e' ∧ e'.Valid := by
  induction ops generalizing e with
  | nil => exact ⟨e, rfl, h⟩
  | cons op ops ih =>
    obtain ⟨e1, hstep, h1⟩ := step_valid h hfit.1
    obtain ⟨e', hrun, h'⟩ := ih h1 (hfit.2 e1 hstep)
    exact ⟨e', by rw [adminRun, hstep, Option.bind_some, hrun], h'⟩

end

/-- **The traffic split.** From an engine without models, every run whose calls fit leaves valid models
only, and `route` follows the weights of the model that the name gives. -/
theorem adminRun_routes {e : Engine} {ops : List AdminOp} (he : e.models = [])
    (hfit : AdminFits e ops) :
    ∃ e', adminRun e ops = some e' ∧ e'.Valid ∧
      ∀ name m, lookup e' name = some m → m.Splits ∧ ∀ requestId, ∃ i v,
        routeIndex m (fnv1a64 (requestId.getD [48])) = some i ∧ m.versions[i]? = some v ∧
          route e' name requestId = some (0, some v.versionId) := by
  have hvalid : e.Valid := by
    intro m hm
    rw [he] at hm
    exact absurd hm List.not_mem_nil
  obtain ⟨e', hrun, h'⟩ := adminRun_valid hvalid hfit
  refine ⟨e', hrun, h', fun name m hl => ⟨(h'.lookup hl).splits, fun requestId => ?_⟩⟩
  exact route_eq (h'.lookup hl) hl requestId

/-- A canary with 30 of 130 residues: of the requests `a` and `b` it gets the second. -/
theorem adminRun_routes_canary :
    ∃ e', adminRun engineCreate [.registerModel [109] [118] [] 0, .registerModel [109] [119] [] 1,
        .setWeight [109] [119] 30] = some e' ∧ e'.Valid ∧
      route e' [109] (some [97]) = some (0, some [118]) ∧ route e' [109] (some [98]) = some (0, some [119]) := by
  have hfit : AdminFits engineCreate [.registerModel [109] [118] [] 0,
      .registerModel [109] [119] [] 1, .setWeight [109] [119] 30] := by
    refine ⟨fun m _ => Or.inr (Or.inl ?_), fun e1 _ => ⟨fun m _ => Or.inr (Or.inl ?_),
      fun e2 _ => ⟨trivial, fun _ _ => trivial⟩⟩⟩
    · exact (by decide : 1 < 64)
    · exact (by decide : 1 < 64)
  have hroutes : (adminRun engineCreate [.registerModel [109] [118] [] 0, .registerModel [109] [119] [] 1,
      .setWeight [109] [119] 30]).map (fun e => (route e [109] (some [97]), route e [109] (some [98]))) =
        some (some (0, some [118]), some (0, some [119])) := by
    decide +kernel
  obtain ⟨e', hrun, hvalid, -⟩ := adminRun_routes rfl hfit
  rw [hrun, Option.map_some, Option.some.injEq] at hroutes
  exact ⟨e', hrun, hvalid, Prod.mk.inj hroutes⟩

/-- The configuration file sets a weight of 250, and two ids are stored as one. -/
theorem not_valid_reload_register :
    (∃ e', adminRun (setConfigPath engineCreate [47]) [.registerModel [109] [118] [] 0,
        .configReload 1 (some "model.m.canary: 250".toUTF8.toList)] = some e' ∧ ¬ e'.Valid) ∧
      ∃ e', adminRun engineCreate [.registerModel [109] (List.replicate 64 97) [] 0,
        .registerModel [109] (List.replicate 65 97) [] 1] = some e' ∧ ¬ e'.Valid := by
  constructor
  · have hweights : (adminRun (setConfigPath engineCreate [47]) [.registerModel [109] [118] [] 0,
        .configReload 1 (some "model.m.canary: 250".toUTF8.toList)]).map Engine.models =
          some [⟨[109], [⟨[118], [], 250, 0⟩], 0⟩] := by
      decide +kernel
    obtain ⟨e', hrun, hmodels⟩ := Option.map_eq_some_iff.mp hweights
    refine ⟨e', hrun, fun hvalid => ?_⟩
    have hm := (hvalid ⟨[109], [⟨[118], [], 250, 0⟩], 0⟩ (by simp [hmodels])).weights _
      List.mem_cons_self
    norm_num at hm
  · have hids : (adminRun engineCreate [.registerModel [109] (List.replicate 64 97) [] 0,
        .registerModel [109] (List.replicate 65 97) [] 1]).map (fun e => e.models.map Model.ids) =
          some [List.replicate 2 (List.replicate 63 97)] := by
      decide +kernel
    obtain ⟨e', hrun, hmodels⟩ := Option.map_eq_some_iff.mp hids
    refine ⟨e', hrun, fun hvalid => ?_⟩
    have hmem : List.replicate 2 (List.replicate 63 97) ∈ e'.models.map Model.ids := by
      simp [hmodels]
    obtain ⟨m, hm, hids⟩ := List.mem_map.mp hmem
    have hnodup := (hvalid m hm).nodup
    rw [hids] at hnodup
    simp at hnodup

end SneppxAlg.Serving
