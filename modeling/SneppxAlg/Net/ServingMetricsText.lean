import SneppxAlg.Fs.JsonBraces
import SneppxAlg.Fs.SafetensorsCorrect
import SneppxAlg.Lib.PrintBuffer
import SneppxAlg.Net.ServingMetrics

/-!
# The JSON text of the metrics

`SNEPPX_serving_metrics_json` puts its text together with `snprintf` and a running offset. The comma behind
the last counter is overwritten with a closing brace, and then the text `},` closes the counters a second
time. So the text has one brace too many and is no JSON, whatever the numbers are.

A piece that starts behind the end of the buffer is written there, since the remaining size wraps
around. So all writes are inside only if the last piece, one brace, does not start behind the end. What is
left are the buffers in which the text just does not fit (`metricsJson_sound_iff`).
-/

namespace SneppxAlg.Serving

open Lib.PrintBuffer Json
open Safetensors (ascii)

/-- What the export reads. The texts of the percentiles and of the throughput are given. -/
structure Snapshot where
  uptimeMs : Int64
  ready : Bool
  modelsLoaded : Int64
  maxBatchSize : Int64
  batchTimeoutMs : Int64
  nWorkers : Int64
  requests : Int64
  errors : Int64
  tokens : Int64
  batches : Int64
  p50 : FloatText
  p95 : FloatText
  p99 : FloatText
  throughputRps : FloatText

def MeteredEngine.snapshot (e : MeteredEngine) (uptimeMs : ℤ) (p50 p95 p99 throughputRps : FloatText) :
    Snapshot where
  uptimeMs := Int64.ofInt uptimeMs
  ready := e.ready
  modelsLoaded := Int64.ofInt e.models.length
  maxBatchSize := Int64.ofInt e.maxBatchSize
  batchTimeoutMs := Int64.ofInt e.batchTimeoutMs
  nWorkers := Int64.ofInt e.nWorkers
  requests := Int64.ofInt e.requests
  errors := Int64.ofInt e.errors
  tokens := Int64.ofInt e.tokens
  batches := Int64.ofInt e.batches
  p50 := p50
  p95 := p95
  p99 := p99
  throughputRps := throughputRps

/-- `"name":value`. -/
def member (name : String) (value : List UInt8) : List UInt8 :=
  ascii "\"" ++ ascii name ++ ascii "\":" ++ value

/-- `fmt_int`. -/
def fmtInt (name : String) (val : Int64) : List UInt8 := member name (lld val.toInt) ++ ascii ","

/-- The pieces up to the last counter. -/
def headPieces (s : Snapshot) : List (List UInt8) :=
  [ascii "\x7b",
    fmtInt "uptime_ms" s.uptimeMs ++
      (member "ready" (ascii (if s.ready then "true" else "false")) ++ ascii ",") ++
      fmtInt "models_loaded" s.modelsLoaded ++ fmtInt "max_batch_size" s.maxBatchSize ++
      fmtInt "batch_timeout_ms" s.batchTimeoutMs ++ fmtInt "n_workers" s.nWorkers,
    ascii "\"counts\":\x7b",
    fmtInt "requests" s.requests,
    fmtInt "errors" s.errors,
    fmtInt "tokens" s.tokens,
    fmtInt "batches" s.batches]

/-- The latencies, behind the counters. -/
def latencyPiece (s : Snapshot) : List UInt8 :=
  ascii "\"latency\":\x7b" ++
    (member "p50" s.p50.text ++ ascii "," ++ member "p95" s.p95.text ++ ascii "," ++
      member "p99" s.p99.text ++ ascii "," ++ member "throughput_rps" s.throughputRps.text) ++
    ascii "\x7d"

/-- `if (pos > 0 && out[pos - 1] == ',') out[pos - 1] = '\x7d';` -/
def stripComma (mem : ℕ → UInt8) (c : Cursor) : Cursor :=
  if 0 < c.pos ∧ readBack mem c.writes (c.pos - 1) = 0x2C then
    { c with writes := c.writes ++ [(c.pos - 1, 0x7D)] }
  else c

/-- `SNEPPX_serving_metrics_json`; `mem` is the memory from `out` on. -/
def metricsJson (s : Snapshot) (mem : ℕ → UInt8) (outSize : UInt64) : Cursor :=
  if outSize = 0 then ⟨0, []⟩
  else
    let c := stripComma mem ((headPieces s).foldl (Cursor.put outSize) ⟨0, []⟩)
    ([ascii "\x7d,", latencyPiece s] ++ [ascii "\x7d"]).foldl (Cursor.put outSize) c

def jsonText (s : Snapshot) : List UInt8 :=
  ((headPieces s).flatten.dropLast ++ ascii "\x7d") ++
    ([ascii "\x7d,", latencyPiece s] ++ [ascii "\x7d"]).flatten

/-- Nothing is written behind the buffer, and a text that fits it is JSON. -/
def Sound (s : Snapshot) (outSize : UInt64) : Prop :=
  ∀ mem : ℕ → UInt8,
    Inside outSize (metricsJson s mem outSize).writes ∧
      ((jsonText s).length < outSize.toNat →
        JsonText ((List.range (metricsJson s mem outSize).pos).map
          (readBack mem (metricsJson s mem outSize).writes)))

/-! ## The text is no JSON -/

theorem neutral_lld (v : ℤ) : Neutral .outside (lld v) := by
  have hdigits : Neutral .outside (Safetensors.decimal v.natAbs) :=
    neutral_of_forall fun b hb => digit_plain (Safetensors.isdigit_of_mem_decimal hb)
  unfold lld
  split_ifs
  · exact Neutral.append (l := [0x2D]) ⟨rfl, rfl⟩ hdigits
  · exact hdigits

/-- The braces of a text that ends outside of strings. -/
structure Nets (k : ℤ) (l : List UInt8) : Prop where
  place : placeAfter .outside l = .outside
  braces : Json.braces .outside l = k

theorem Nets.append {k k' : ℤ} {l m : List UInt8} (hl : Nets k l) (hm : Nets k' m) : Nets (k + k') (l ++ m) :=
  ⟨by rw [placeAfter_append, hl.place, hm.place], by rw [braces_append, hl.place, hl.braces, hm.braces]⟩

theorem nets_zero {l : List UInt8} (h : Neutral .outside l) : Nets 0 l := ⟨h.place, h.braces⟩

theorem Neutral.member {name : String} {value : List UInt8}
    (hname : Neutral .outside (ascii "\"" ++ ascii name ++ ascii "\":")) (h : Neutral .outside value) :
    Neutral .outside (Serving.member name value) := hname.append h

theorem neutral_comma : Neutral .outside (ascii ",") := ⟨by decide, by decide⟩

theorem neutral_fmtInt {name : String} (hname : Neutral .outside (ascii "\"" ++ ascii name ++ ascii "\":"))
    (val : Int64) : Neutral .outside (fmtInt name val) :=
  (Neutral.member hname (neutral_lld _)).append neutral_comma

theorem FloatText.neutral (t : FloatText) : Neutral .outside t.text := neutral_of_forall t.plain

variable (s : Snapshot)

theorem nets_head : Nets 2 (headPieces s).flatten := by
  have hfields : Neutral .outside (fmtInt "uptime_ms" s.uptimeMs ++
      (Serving.member "ready" (ascii (if s.ready then "true" else "false")) ++ ascii ",") ++
      fmtInt "models_loaded" s.modelsLoaded ++ fmtInt "max_batch_size" s.maxBatchSize ++
      fmtInt "batch_timeout_ms" s.batchTimeoutMs ++ fmtInt "n_workers" s.nWorkers) := by
    have hready : Neutral .outside (ascii (if s.ready then "true" else "false")) := by
      split_ifs <;> exact ⟨by decide, by decide⟩
    refine Neutral.append (Neutral.append (Neutral.append (Neutral.append (Neutral.append ?_
      ((Neutral.member ⟨by decide, by decide⟩ hready).append neutral_comma)) ?_) ?_) ?_) ?_ <;>
      exact neutral_fmtInt ⟨by decide, by decide⟩ _
  have hcounts : Neutral .outside [fmtInt "requests" s.requests, fmtInt "errors" s.errors,
      fmtInt "tokens" s.tokens, fmtInt "batches" s.batches].flatten := by
    refine Neutral.append ?_ (Neutral.append ?_ (Neutral.append ?_ (Neutral.append ?_ (Neutral.nil _)))) <;>
      exact neutral_fmtInt ⟨by decide, by decide⟩ _
  have hopen : Nets 1 (ascii "\x7b") := ⟨by decide, by decide⟩
  have hopen' : Nets 1 (ascii "\"counts\":\x7b") := ⟨by decide, by decide⟩
  exact hopen.append ((nets_zero hfields).append (hopen'.append (nets_zero hcounts)))

theorem nets_latency : Nets 0 (latencyPiece s) := by
  have hmembers : Neutral .outside (Serving.member "p50" s.p50.text ++ ascii "," ++
      Serving.member "p95" s.p95.text ++ ascii "," ++ Serving.member "p99" s.p99.text ++ ascii "," ++
      Serving.member "throughput_rps" s.throughputRps.text) := by
    refine Neutral.append (Neutral.append (Neutral.append (Neutral.append (Neutral.append (Neutral.append ?_
      neutral_comma) ?_) neutral_comma) ?_) neutral_comma) ?_ <;>
      exact Neutral.member ⟨by decide, by decide⟩ (FloatText.neutral _)
  have hopen : Nets 1 (ascii "\"latency\":\x7b") := ⟨by decide, by decide⟩
  have hclose : Nets (-1) (ascii "\x7d") := ⟨by decide, by decide⟩
  exact (hopen.append (nets_zero hmembers)).append hclose

/-- The text up to the comma that is overwritten. -/
def headText : List UInt8 := (headPieces s).dropLast.flatten ++ Serving.member "batches" (lld s.batches.toInt)

theorem head_eq : (headPieces s).flatten = headText s ++ [0x2C] := by
  have hcomma : ascii "," = [0x2C] := by decide
  simp [headPieces, headText, fmtInt, hcomma]

theorem jsonText_eq : jsonText s =
    (headText s ++ ascii "\x7d") ++ (ascii "\x7d," ++ (latencyPiece s ++ ascii "\x7d")) := by
  rw [jsonText, head_eq, List.dropLast_concat]
  simp

theorem Nets.of_comma {k : ℤ} {l : List UInt8} (h : Nets k (l ++ [0x2C])) : Nets k l := by
  obtain ⟨hplace, hbraces⟩ := h
  rw [placeAfter_append] at hplace
  rw [braces_append] at hbraces
  cases hl : placeAfter .outside l with
  | outside =>
    rw [hl] at hbraces
    exact ⟨hl, by simpa [Json.braces, Place.brace] using hbraces⟩
  | inside => simp [hl, placeAfter, Place.next] at hplace
  | escaped => simp [hl, placeAfter, Place.next] at hplace

/-- Three braces are opened and four are closed. -/
theorem nets_jsonText : Nets (-1) (jsonText s) := by
  have hhead : Nets 2 (headText s) := Nets.of_comma (head_eq s ▸ nets_head s)
  have hclose : Nets (-1) (ascii "\x7d") := ⟨by decide, by decide⟩
  have hclose' : Nets (-1) (ascii "\x7d,") := ⟨by decide, by decide⟩
  rw [jsonText_eq]
  exact (hhead.append hclose).append (hclose'.append ((nets_latency s).append hclose))

theorem not_jsonText : ¬ JsonText (jsonText s) := fun h =>
  absurd ((nets_jsonText s).braces.symm.trans h.braces_eq_zero) (by decide)

/-! ## The writes -/

variable {s} {mem : ℕ → UInt8} {outSize : UInt64}

theorem stripComma_pos (c : Cursor) : (stripComma mem c).pos = c.pos := by
  unfold stripComma
  split_ifs <;> rfl

theorem inside_stripComma {c : Cursor} (hpos : c.pos ≤ outSize.toNat) :
    Inside outSize (stripComma mem c).writes ↔ Inside outSize c.writes := by
  unfold stripComma
  split_ifs with h
  · refine ⟨fun hinside => (inside_append.mp hinside).1, fun hinside => inside_append.mpr ⟨hinside, ?_⟩⟩
    intro w hw
    obtain rfl := List.mem_singleton.mp hw
    dsimp only
    omega
  · exact Iff.rfl

theorem length_jsonText : (jsonText s).length =
    (headPieces s).flatten.length + ([ascii "\x7d,", latencyPiece s]).flatten.length + 1 := by
  have hbrace : (ascii "\x7d").length = 1 := by decide
  rw [jsonText_eq, head_eq]
  simp [hbrace]
  omega

theorem length_lld_le (v : Int64) : (lld v.toInt).length ≤ 21 := by
  have hlow := v.le_toInt
  have hhigh := v.toInt_lt
  have hdigits : (Safetensors.decimal v.toInt.natAbs).length ≤ 20 :=
    Safetensors.length_decimal_le (by omega)
  unfold lld
  split_ifs
  · rw [List.length_cons]
    omega
  · omega

theorem length_member (name : String) (value : List UInt8) :
    (Serving.member name value).length = name.length + 3 + value.length := by
  have hname : name.toList.length = name.length := String.length_toList
  simp [Serving.member, ascii, hname]
  omega

theorem length_fmtInt_le {name : String} (hname : name.length ≤ 16) (val : Int64) :
    (fmtInt name val).length ≤ 41 := by
  have hval := length_lld_le val
  rw [fmtInt, List.length_append, length_member]
  simp [ascii]
  omega

theorem length_jsonText_le (s : Snapshot) : (jsonText s).length ≤ 4096 := by
  have hready : (ascii (if s.ready then "true" else "false")).length ≤ 5 := by split_ifs <;> decide
  have h1 := @length_fmtInt_le "uptime_ms" (by decide) s.uptimeMs
  have h2 := @length_fmtInt_le "models_loaded" (by decide) s.modelsLoaded
  have h3 := @length_fmtInt_le "max_batch_size" (by decide) s.maxBatchSize
  have h4 := @length_fmtInt_le "batch_timeout_ms" (by decide) s.batchTimeoutMs
  have h5 := @length_fmtInt_le "n_workers" (by decide) s.nWorkers
  have h6 := @length_fmtInt_le "requests" (by decide) s.requests
  have h7 := @length_fmtInt_le "errors" (by decide) s.errors
  have h8 := @length_fmtInt_le "tokens" (by decide) s.tokens
  have h9 := @length_fmtInt_le "batches" (by decide) s.batches
  have hl1 := s.p50.length_le
  have hl2 := s.p95.length_le
  have hl3 := s.p99.length_le
  have hl4 := s.throughputRps.length_le
  rw [length_jsonText]
  simp only [headPieces, latencyPiece, List.flatten_cons, List.flatten_nil, List.length_append, length_member,
    List.length_nil]
  have e1 : (ascii "\x7b").length = 1 := by decide
  have e2 : (ascii "\"counts\":\x7b").length = 10 := by decide
  have e3 : (ascii "\x7d,").length = 2 := by decide
  have e4 : (ascii "\"latency\":\x7b").length = 11 := by decide
  have e5 : (ascii ",").length = 1 := by decide
  have e6 : (ascii "\x7d").length = 1 := by decide
  have n1 : "ready".length = 5 := by decide
  have n2 : "p50".length = 3 := by decide
  have n3 : "p95".length = 3 := by decide
  have n4 : "p99".length = 3 := by decide
  have n5 : "throughput_rps".length = 14 := by decide
  omega

theorem stripComma_holds {c : Cursor} {l : List UInt8} (h : Lib.PrintBuffer.Holds mem c (l ++ [0x2C])) :
    Lib.PrintBuffer.Holds mem (stripComma mem c) (l ++ [0x7D]) := by
  have hpos : c.pos = l.length + 1 := by simpa using h.pos
  have hlast : readBack mem c.writes l.length = 0x2C := by
    rw [h.read l.length (by simp)]
    simp
  have hstrip : Serving.stripComma mem c = { c with writes := c.writes ++ [(l.length, 0x7D)] } := by
    rw [Serving.stripComma, hpos, Nat.add_sub_cancel, if_pos ⟨Nat.succ_pos _, hlast⟩, ← hpos]
  rw [hstrip]
  refine ⟨by simpa using hpos, fun i hi => ?_⟩
  rw [readBack_append]
  by_cases hi' : i < l.length
  · rw [readBack_of_ne (by simp; omega), h.read i (by simp; omega), List.getElem_append_left hi',
      List.getElem_append_left hi']
  · have heq : i = l.length := by
      simp at hi
      omega
    subst heq
    simp [readBack]

theorem inside_metricsJson_iff (hsize : outSize ≠ 0) :
    Inside outSize (metricsJson s mem outSize).writes ↔ (jsonText s).length ≤ outSize.toNat + 1 := by
  have hlen := length_jsonText (s := s)
  have hle := length_jsonText_le s
  have hpos : (stripComma mem ((headPieces s).foldl (Cursor.put outSize) ⟨0, []⟩)).pos =
      (headPieces s).flatten.length := by
    rw [stripComma_pos, pos_foldl_put, Nat.zero_add]
  rw [metricsJson, if_neg hsize, inside_foldl_iff (by omega), hpos]
  constructor
  · rintro ⟨-, hfit⟩
    omega
  · intro hfit
    refine ⟨(inside_stripComma ?_).mpr ?_, by omega⟩
    · rw [pos_foldl_put, Nat.zero_add]
      omega
    · have hstart : Inside outSize (Cursor.mk 0 []).writes := fun w hw => absurd hw List.not_mem_nil
      exact hstart.foldl (by rw [Nat.zero_add]; omega)

theorem written_metricsJson (hfit : (jsonText s).length < outSize.toNat) :
    (List.range (metricsJson s mem outSize).pos).map (readBack mem (metricsJson s mem outSize).writes) =
      jsonText s := by
  have hlen := @length_jsonText s
  have hsize : outSize ≠ 0 := by
    rintro rfl
    exact absurd hfit (by simp)
  have hstart : Lib.PrintBuffer.Holds mem ⟨0, []⟩ [] := ⟨rfl, fun i hi => absurd hi (Nat.not_lt_zero i)⟩
  have hhead := @Lib.PrintBuffer.Holds.foldl outSize _ mem _ hstart (headPieces s) (by rw [Nat.zero_add]; omega)
  rw [List.nil_append, head_eq] at hhead
  have hstrip := stripComma_holds hhead
  have hpos : (stripComma mem ((headPieces s).foldl (Cursor.put outSize) ⟨0, []⟩)).pos =
      (headPieces s).flatten.length := by
    rw [stripComma_pos, pos_foldl_put, Nat.zero_add]
  have hall := @Lib.PrintBuffer.Holds.foldl outSize _ mem _ hstrip
    ([ascii "\x7d,", latencyPiece s] ++ [ascii "\x7d"]) (by
      have hbrace : (ascii "\x7d").length = 1 := by decide
      rw [hpos, List.flatten_append, List.length_append, List.flatten_singleton, hbrace]
      omega)
  have htext : headText s ++ [0x7D] ++ ([ascii "\x7d,", latencyPiece s] ++ [ascii "\x7d"]).flatten = jsonText s := by
    have hbrace : ascii "\x7d" = [0x7D] := by decide
    rw [jsonText_eq]
    simp [hbrace]
  rw [htext] at hall
  have hfinal : metricsJson s mem outSize = ([ascii "\x7d,", latencyPiece s] ++ [ascii "\x7d"]).foldl
      (Cursor.put outSize) (stripComma mem ((headPieces s).foldl (Cursor.put outSize) ⟨0, []⟩)) := by
    rw [metricsJson, if_neg hsize]
  rw [hfinal]
  exact hall.written

/-- For every engine state and every size of the buffer. -/
theorem metricsJson_sound_iff (s : Snapshot) (outSize : UInt64) :
    Sound s outSize ↔
      outSize = 0 ∨ outSize.toNat = (jsonText s).length ∨ outSize.toNat + 1 = (jsonText s).length := by
  constructor
  · intro hsound
    by_cases hsize : outSize = 0
    · exact Or.inl hsize
    · have hle := (inside_metricsJson_iff hsize).mp (hsound fun _ => 0).1
      by_cases hfit : (jsonText s).length < outSize.toNat
      · have htext := (hsound fun _ => 0).2 hfit
        rw [written_metricsJson hfit] at htext
        exact absurd htext (not_jsonText s)
      · exact Or.inr (by omega)
  · intro hcond mem
    by_cases hsize : outSize = 0
    · subst hsize
      rw [metricsJson, if_pos rfl]
      exact ⟨fun w hw => absurd hw List.not_mem_nil, fun hfit => absurd hfit (by simp)⟩
    · have hle : (jsonText s).length ≤ outSize.toNat + 1 ∧ outSize.toNat ≤ (jsonText s).length := by
        rcases hcond with hzero | h | h
        · exact absurd hzero hsize
        · omega
        · omega
      exact ⟨(inside_metricsJson_iff hsize).mpr hle.1, fun hfit => absurd hfit (by omega)⟩

/-- `0.000`. -/
def zeroText : FloatText := ⟨[0x30, 0x2E, 0x30, 0x30, 0x30], by simp, by simp⟩

/-- The snapshot of a fresh engine that has been up for no time. -/
def freshSnapshot : Snapshot := meteredCreate.snapshot 0 zeroText zeroText zeroText zeroText

/-- The buffer of `handle_metrics`. -/
theorem not_sound_handleMetrics : ¬ Sound freshSnapshot 65536 := by
  have hle := length_jsonText_le freshSnapshot
  have hsize : (65536 : UInt64).toNat = 65536 := by simp
  rw [metricsJson_sound_iff, hsize]
  rintro (hzero | h | h)
  · exact absurd hzero (by decide)
  · omega
  · omega

end SneppxAlg.Serving
