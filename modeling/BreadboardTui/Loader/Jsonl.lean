import BreadboardTui.Js.Value
import BreadboardTui.Lib.Lines

/-!
# Lenient JSONL parsing

`parseJsonlLenient` reads a whole text with `Bun.JSONL.parseChunk` and skips the lines that it
rejects. The parser, `JSON.parse` and the UTF-8 decoder are the runtime's: `JsonlRuntime` states
what they are documented to do, and nothing more. In particular it leaves open how much white space
a call of `parseChunk` consumes besides its records.

`parseJsonlLenient_eq` is the result: the records of all lines, and the number of the lines that are
not blank and not records.
-/

namespace BreadboardTui

open List Bool

namespace Loader

/-- What `Bun.JSONL.parseChunk` returns. -/
structure ParseChunkResult where
  values : List JsValue
  error : Bool
  read : ℕ
  done : Bool

/-- A line that is neither blank nor a record. -/
def IsMalformed {σ : Type} (fmt : LineFormat σ JsValue) (line : List σ) : Prop :=
  fmt.value line = none ∧ ∃ a ∈ line, fmt.isSpace a = false

/-- The documented results of `parseChunk`. -/
inductive ParsesChunk {σ : Type} [DecidableEq σ] (fmt : LineFormat σ JsValue) (input : List σ)
    (result : ParseChunkResult) : Prop where
  /-- The values of the records before the first malformed line that ends, and where it starts. -/
  | malformed (before line after : List σ) (values : List JsValue)
      (hinput : input = before ++ (line ++ fmt.newline :: after))
      (hbefore : fmt.scan [] before = (values.map .entry, []))
      (hline : fmt.newline ∉ line) (hmalformed : IsMalformed fmt line)
      (herror : result.error = true) (hvalues : result.values = values)
      (hread : result.read = before.length)
  /-- The values of all records. The line that has not ended is consumed exactly if it is a record;
  besides it only white space may be left. -/
  | complete (values : List JsValue) (line blank : List σ)
      (hscan : fmt.scan [] input = (values.map .entry, line)) (herror : result.error = false)
      (hvalues : result.values = values ++ (fmt.value line).toList)
      (hblank : ∀ a ∈ blank, fmt.isBlank a = true)
      (hunread : input.drop result.read =
        blank ++ if (fmt.value line).isSome then [] else line)
      (hdone : result.done = true → ∀ a ∈ input.drop result.read, fmt.isBlank a = true)

/-- White space of JSON within a line. -/
def isJsonSpace (c : Char) : Bool := c == ' ' || c == '\t' || c == '\r'

/-- `byte === 0x09 || byte === 0x0d || byte === 0x20`. -/
def isSpaceByte (b : UInt8) : Bool := b == 0x09 || b == 0x0d || b == 0x20

theorem isSpaceByte_ascii {b : UInt8} (h : isSpaceByte b = true) :
    b < 0x80 ∧ isJsonSpace (Char.ofNat b.toNat) = true := by
  simp only [isSpaceByte, or_eq_true, beq_iff_eq] at h
  rcases h with (rfl | rfl) | rfl <;> decide

/-- The decoder and the JSON parser of the runtime. -/
structure JsonRuntime where
  /-- `TextDecoder.decode`, for UTF-8. A byte order mark is a character. -/
  decode : List UInt8 → List Char
  decode_nil : decode [] = []
  /-- An ASCII byte is a character of its own, whatever is around it. -/
  decode_ascii : ∀ before b after, b < 0x80 →
    decode (before ++ b :: after) = decode before ++ Char.ofNat b.toNat :: decode after
  /-- ASCII characters come from ASCII bytes only. -/
  decode_mem : ∀ bytes, ∀ c ∈ decode bytes, c.toNat < 0x80 →
    ∃ b ∈ bytes, b < 0x80 ∧ c = Char.ofNat b.toNat
  /-- `JSON.parse`; `none` where it throws. -/
  parse : List Char → Option JsValue
  parse_nil : parse [] = none
  parse_cons_space : ∀ c text, isJsonSpace c = true → parse (c :: text) = parse text
  parse_append_space : ∀ c text, isJsonSpace c = true → parse (text ++ [c]) = parse text
  /-- A JSON text neither starts nor ends with white space that JSON does not know. -/
  parse_trim : ∀ text value, parse text = some value → parse (trimChars text) = some value

namespace JsonRuntime

variable (R : JsonRuntime)

/-- Lines of characters. -/
def textFormat : LineFormat Char JsValue where
  newline := '\n'
  isSpace := isJsonSpace
  value := R.parse
  newline_not_space := rfl
  value_nil := R.parse_nil
  value_cons_space := R.parse_cons_space

theorem decode_cons {b : UInt8} (h : b < 0x80) (bytes : List UInt8) :
    R.decode (b :: bytes) = Char.ofNat b.toNat :: R.decode bytes := by
  have hdecode := R.decode_ascii [] b bytes h
  rwa [R.decode_nil, nil_append, nil_append] at hdecode

/-- Lines of bytes. -/
def byteFormat : LineFormat UInt8 JsValue where
  newline := 0x0a
  isSpace := isSpaceByte
  value line := R.parse (R.decode line)
  newline_not_space := rfl
  value_nil := by rw [R.decode_nil, R.parse_nil]
  value_cons_space b line h := by
    rw [R.decode_cons (isSpaceByte_ascii h).1, R.parse_cons_space _ _ (isSpaceByte_ascii h).2]

end JsonRuntime

/-- The runtime with `Bun.JSONL.parseChunk`, on strings and on byte arrays. -/
structure JsonlRuntime extends JsonRuntime where
  parseText : List Char → ParseChunkResult
  parseBytes : List UInt8 → ParseChunkResult
  parsesText : ∀ input, ParsesChunk toJsonRuntime.textFormat input (parseText input)
  parsesBytes : ∀ input, ParsesChunk toJsonRuntime.byteFormat input (parseBytes input)

/-! ### The loop -/

/-- `buffer.indexOf(newline, read)`. -/
def indexFrom {σ : Type} [DecidableEq σ] (newline : σ) (read : ℕ) (buffer : List σ) : Option ℕ :=
  ((buffer.drop read).findIdx? (· == newline)).map (read + ·)

/-- `text.trim().length > 0`. -/
def countsText (text : List Char) : Bool := trimChars text ≠ []

/-- The loop of `parseJsonlLenient`; a round consumes at least one character. -/
def parseJsonlLenientLoop (R : JsonlRuntime) : ℕ → List Char → List JsValue × ℕ
  | 0, _ => ([], 0)
  | fuel + 1, buffer =>
    if buffer = [] then ([], 0)
    else
      let result := R.parseText buffer
      if result.error then
        match indexFrom '\n' result.read buffer with
        | none =>
          (result.values, if countsText (buffer.drop result.read) then 1 else 0)
        | some nextNewline =>
          let rest := parseJsonlLenientLoop R fuel (buffer.drop (nextNewline + 1))
          (result.values ++ rest.1,
            (if countsText ((buffer.take nextNewline).drop result.read) then 1 else 0) + rest.2)
      else if result.read = 0 then (result.values, if countsText buffer then 1 else 0)
      else if result.done then (result.values, 0)
      else
        let rest := parseJsonlLenientLoop R fuel (buffer.drop result.read)
        (result.values ++ rest.1, rest.2)

/-- `parseJsonlLenient`: the entries and the calls of `onMalformedRecord`. -/
def parseJsonlLenient (R : JsonlRuntime) (buffer : List Char) : List JsValue × ℕ :=
  parseJsonlLenientLoop R buffer.length buffer

section Lenient

variable {σ : Type} [DecidableEq σ] {fmt : LineFormat σ JsValue} {line : List σ}

/-- The end of a line is found behind it. -/
theorem indexFrom_line {before after : List σ} {newline : σ} (h : newline ∉ line) :
    indexFrom newline before.length (before ++ (line ++ newline :: after)) =
      some (before.length + line.length) := by
  have hline : line.findIdx? (· == newline) = none := by
    rw [findIdx?_eq_none_iff]
    intro a ha
    exact beq_false_of_ne fun heq => h (heq ▸ ha)
  rw [indexFrom, drop_left, findIdx?_append, hline, findIdx?_cons]
  simp

theorem outcome_of_isMalformed (hline : fmt.newline ∉ line) (h : IsMalformed fmt line) :
    fmt.outcome line = [.malformed (fmt.lead line)] := by
  obtain ⟨hvalue, a, ha, hspace⟩ := h
  have hlead : fmt.lead line ≠ [] := by
    intro hnil
    have hblank := dropWhile_eq_nil_iff.mp hnil a ha
    rw [LineFormat.isBlank, hspace, Bool.false_or] at hblank
    exact hline (eq_of_beq hblank ▸ ha)
  rw [LineFormat.outcome, hvalue, if_neg hlead]

/-- What a call that reports no error leaves, with what it returns, is the whole text. -/
theorem outcomes_complete {input blank : List σ} {values : List JsValue}
    (hscan : fmt.scan [] input = (values.map .entry, line))
    (hblank : ∀ a ∈ blank, fmt.isBlank a = true) :
    fmt.outcomes input = (values ++ (fmt.value line).toList).map .entry ++
      fmt.outcomes (blank ++ if (fmt.value line).isSome then [] else line) := by
  have hline : fmt.newline ∉ line := by
    have h := LineFormat.newline_notMem_scan fmt not_mem_nil input
    rwa [hscan] at h
  rw [LineFormat.outcomes, hscan, LineFormat.outcomes_congr_lead (LineFormat.lead_append hblank _)]
  cases hvalue : fmt.value line with
  | none => simp [LineFormat.outcomes_of_notMem hline]
  | some =>
    simp [LineFormat.outcome, hvalue, LineFormat.outcomes, LineFormat.scan, fmt.value_nil,
      LineFormat.lead]

end Lenient

theorem trimChars_append {space : List Char} (h : ∀ c ∈ space, isJsWhitespace c = true)
    (text : List Char) : trimChars (space ++ text) = trimChars text := by
  rw [trimChars, dropWhile_append_of_pos h, trimChars]

theorem isJsWhitespace_of_isBlank (R : JsonlRuntime) {c : Char}
    (h : R.textFormat.isBlank c = true) : isJsWhitespace c = true := by
  simp only [LineFormat.isBlank, JsonRuntime.textFormat, isJsonSpace, or_eq_true, beq_iff_eq] at h
  rcases h with ((rfl | rfl) | rfl) | rfl <;> rfl

theorem countsText_lead (R : JsonlRuntime) (text : List Char) :
    countsText (R.textFormat.lead text) = countsText text := by
  obtain ⟨blank, hblank, heq⟩ := LineFormat.exists_lead R.textFormat text
  have htrim := trimChars_append (fun c hc => isJsWhitespace_of_isBlank R (hblank c hc))
    (R.textFormat.lead text)
  rw [← heq] at htrim
  rw [countsText, countsText, htrim]

/-- What a call leaves unread holds no record, and at most one malformed line. -/
theorem outcomes_unread (R : JsonlRuntime) {blank line : List Char}
    (hblank : ∀ c ∈ blank, R.textFormat.isBlank c = true) (hline : '\n' ∉ line)
    (hvalue : R.textFormat.value line = none) :
    Outcome.entries (R.textFormat.outcomes (blank ++ line)) = [] ∧
      Outcome.malformedCount countsText (R.textFormat.outcomes (blank ++ line)) =
        if countsText (blank ++ line) then 1 else 0 := by
  have hcounts : countsText (blank ++ line) = countsText line := by
    rw [← countsText_lead R, LineFormat.lead_append hblank, countsText_lead]
  have houtcomes : R.textFormat.outcomes (blank ++ line) = R.textFormat.outcome line := by
    rw [LineFormat.outcomes_congr_lead (LineFormat.lead_append hblank line)]
    exact LineFormat.outcomes_of_notMem hline
  rw [houtcomes, hcounts, LineFormat.outcome, hvalue, ← countsText_lead R line]
  by_cases hlead : R.textFormat.lead line = []
  · rw [if_pos hlead, hlead]
    exact ⟨rfl, rfl⟩
  rw [if_neg hlead]
  exact ⟨rfl, by simp⟩

/-- The loop finds the records of all lines and counts the malformed ones. -/
theorem parseJsonlLenientLoop_eq (R : JsonlRuntime) {fuel : ℕ} {buffer : List Char}
    (hfuel : buffer.length ≤ fuel) :
    parseJsonlLenientLoop R fuel buffer =
      (Outcome.entries (R.textFormat.outcomes buffer),
        Outcome.malformedCount countsText (R.textFormat.outcomes buffer)) := by
  induction fuel generalizing buffer with
  | zero =>
    obtain rfl := eq_nil_of_length_eq_zero (Nat.le_zero.mp hfuel)
    rw [LineFormat.outcomes_of_notMem not_mem_nil, LineFormat.outcome_nil]
    rfl
  | succ fuel ih =>
    rw [parseJsonlLenientLoop]
    by_cases hempty : buffer = []
    · rw [if_pos hempty, hempty, LineFormat.outcomes_of_notMem not_mem_nil, LineFormat.outcome_nil]
      rfl
    rw [if_neg hempty]
    rcases R.parsesText buffer with
      ⟨before, line, after, values, hinput, hbefore, hline, hmalformed, herror, hvalues, hread⟩ |
      ⟨values, line, blank, hscan, herror, hvalues, hblank, hunread, hdone⟩
    · have hnewline : '\n' ∉ line := hline
      have hindex : indexFrom '\n' before.length buffer = some (before.length + line.length) := by
        rw [hinput]
        exact indexFrom_line hnewline
      have hslice : (buffer.take (before.length + line.length)).drop before.length = line := by
        rw [hinput, take_length_add_append, drop_left, take_left]
      have hrest : buffer.drop (before.length + line.length + 1) = after := by
        rw [hinput, add_assoc, drop_length_add_append, drop_length_add_append]
        rfl
      have hlength : after.length ≤ fuel := by
        rw [hinput] at hfuel
        simp only [length_append, length_cons] at hfuel
        omega
      have houtcomes : R.textFormat.outcomes buffer =
          values.map .entry ++ (.malformed (R.textFormat.lead line) ::
            R.textFormat.outcomes after) := by
        rw [hinput, LineFormat.outcomes, LineFormat.scan_append, hbefore,
          LineFormat.scan_line hline, outcome_of_isMalformed hline hmalformed,
          LineFormat.outcomes]
        simp
      simp [herror, hread, hindex, hslice, hrest, ih hlength, hvalues, houtcomes, countsText_lead]
    have houtcomes := outcomes_complete hscan hblank
    have hline : '\n' ∉ line := by
      have h := LineFormat.newline_notMem_scan R.textFormat not_mem_nil buffer
      rwa [hscan] at h
    rw [← hunread] at houtcomes
    generalize R.parseText buffer = result at *
    simp only [herror, false_eq_true, if_false, hvalues, houtcomes,
      Outcome.entries_append, Outcome.entries_map_entry, Outcome.malformedCount_append,
      Outcome.malformedCount_map_entry, zero_add]
    by_cases hread : result.read = 0
    · have hall : buffer = buffer.drop result.read := by rw [hread, drop_zero]
      rw [if_pos hread]
      have hvalue : R.textFormat.value (if (R.textFormat.value line).isSome then [] else line) =
          none := by
        split
        · exact R.parse_nil
        · next h => exact Option.not_isSome_iff_eq_none.mp h
      have hunreadLine : '\n' ∉ if (R.textFormat.value line).isSome then [] else line := by
        split
        · exact not_mem_nil
        · exact hline
      obtain ⟨hentries, hcount⟩ := outcomes_unread R hblank hunreadLine hvalue
      rw [← hunread, ← hall] at hentries hcount
      rw [← hall, hentries, hcount, append_nil]
    rw [if_neg hread]
    by_cases hend : result.done = true
    · rw [if_pos hend, LineFormat.outcomes_of_blank (hdone hend)]
      simp
    have hlength : (buffer.drop result.read).length ≤ fuel := by
      rw [length_drop]
      omega
    rw [if_neg hend, ih hlength]

/-- `parseJsonlLenient` finds the records of all lines and counts the malformed ones. -/
theorem parseJsonlLenient_eq (R : JsonlRuntime) (buffer : List Char) : parseJsonlLenient R buffer =
      (Outcome.entries (R.textFormat.outcomes buffer),
        Outcome.malformedCount countsText (R.textFormat.outcomes buffer)) :=
  parseJsonlLenientLoop_eq R (le_refl _)

end Loader

end BreadboardTui
