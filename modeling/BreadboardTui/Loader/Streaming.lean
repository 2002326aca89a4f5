import BreadboardTui.Loader.SessionLoader

/-!
# The stream, token by token

A file that arrives in chunks is a sequence of tokens: its bytes, with the ends of the chunks among
them. `LineState.token` says what a token does to what has been visited and to the part of the
current line that the stream holds. The stream with its buffer follows it: `follows_tokens`.
-/

namespace BreadboardTui

open List

namespace Loader

/-- The bytes of the chunks, each chunk followed by `none`. -/
def tokens (chunks : List (List UInt8)) : List (Option UInt8) :=
  chunks.flatMap fun chunk => chunk.map some ++ [none]

/-- The bytes among tokens. -/
def bytesOf (toks : List (Option UInt8)) : List UInt8 := toks.filterMap id

@[simp] theorem bytesOf_nil : bytesOf [] = [] := rfl

@[simp] theorem bytesOf_cons_some (b : UInt8) (toks : List (Option UInt8)) :
    bytesOf (some b :: toks) = b :: bytesOf toks := rfl

@[simp] theorem bytesOf_cons_none (toks : List (Option UInt8)) :
    bytesOf (none :: toks) = bytesOf toks := rfl

@[simp] theorem bytesOf_append (toks toks' : List (Option UInt8)) :
    bytesOf (toks ++ toks') = bytesOf toks ++ bytesOf toks' := filterMap_append

@[simp] theorem bytesOf_map_some (bytes : List UInt8) : bytesOf (bytes.map some) = bytes := by
  induction bytes with
  | nil => rfl
  | cons b bytes ih => rw [map_cons, bytesOf_cons_some, ih]

variable (chunks : List (List UInt8))

theorem bytesOf_tokens : bytesOf (tokens chunks) = chunks.flatten := by
  induction chunks with
  | nil => rfl
  | cons chunk chunks ih =>
    rw [tokens, flatMap_cons, ← tokens, bytesOf_append, ih, bytesOf_append, bytesOf_map_some]
    simp

theorem mem_bytesOf {b : UInt8} {toks : List (Option UInt8)} : b ∈ bytesOf toks ↔ some b ∈ toks := by
  simp [bytesOf]

/-! ### The stream, token by token -/

/-- What the stream knows between two tokens: `part` is what it holds of the current line. -/
structure LineState where
  visited : Visited
  sawFirstLine : Bool
  part : List UInt8

/-- The slot that the stream finds on the first line. -/
def firstLineSlot (R : JsonlRuntime) (line : List UInt8) : Option SessionTitleUpdate :=
  let firstLine := trimChars (R.decode line)
  (if firstLine = [] then none else parseTitleSlotLine R firstLine).map titleUpdateFromSlot

/-- The end of a line. -/
def LineState.newline (R : JsonlRuntime) (state : LineState) : LineState :=
  match if state.sawFirstLine then none else firstLineSlot R state.part with
  | some slot => ⟨{ state.visited with titleSlot := some slot }, true, []⟩
  | none => ⟨state.visited.consumeAll (R.byteFormat.outcome state.part), true, []⟩

def LineState.token (R : JsonlRuntime) (state : LineState) : Option UInt8 → LineState
  | none =>
    { state with
      visited := state.visited.consumeAll (earlyEntry R state.part)
      part := pendingPart R state.part }
  | some b =>
    if b = 0x0a then state.newline R else { state with part := state.part ++ [b] }

section Steps

variable (R : JsonlRuntime)

theorem LineState.token_newline (state : LineState) :
    state.token R (some 0x0a) = state.newline R := by
  rw [LineState.token, if_pos rfl]

/-- Bytes of one line are added to the part. -/
theorem foldl_token_of_notMem {line : List UInt8} (h : (0x0a : UInt8) ∉ line) (state : LineState) :
    (line.map some).foldl (LineState.token R) state =
      { state with part := state.part ++ line } := by
  induction line generalizing state with
  | nil => simp
  | cons b line ih =>
    rw [mem_cons, not_or] at h
    rw [map_cons, foldl_cons, ih h.2, LineState.token, if_neg (Ne.symm h.1)]
    simp

theorem foldl_token_scan (bytes : List UInt8) (visited : Visited) (part : List UInt8) :
    (bytes.map some).foldl (LineState.token R) ⟨visited, true, part⟩ =
      ⟨visited.consumeAll (R.byteFormat.scan part bytes).1, true,
        (R.byteFormat.scan part bytes).2⟩ := by
  induction bytes generalizing visited part with
  | nil => rfl
  | cons b bytes ih =>
    rw [map_cons, foldl_cons, LineState.token, LineFormat.scan]
    by_cases hb : b = 0x0a
    · have hnewline : b = R.byteFormat.newline := hb
      rw [if_pos hb, if_pos hnewline, LineState.newline]
      simp only [if_true]
      rw [ih, Visited.consumeAll_append]
    have hnewline : b ≠ R.byteFormat.newline := hb
    rw [if_neg hb, if_neg hnewline]
    exact ih visited (part ++ [b])

/-! ### The buffer holds the current line -/

/-- The stream after a chunk: its buffer holds the part of the current line, up to blank lines and
space in front. -/
structure Follows (state : StreamState) (line : LineState) : Prop where
  visited : state.visited = line.visited
  sawFirstLine : state.sawFirstLine = line.sawFirstLine
  lead : R.byteFormat.lead state.buffer = R.byteFormat.lead line.part
  part : (0x0a : UInt8) ∉ line.part
  buffer : line.sawFirstLine = false → (0x0a : UInt8) ∉ state.buffer

variable {R}

theorem mem_drainLoop {fuel : ℕ} {visited : Visited} {buffer : List UInt8} {b : UInt8}
    (h : b ∈ (drainLoop R fuel visited buffer).2) : b ∈ buffer := by
  induction fuel generalizing visited buffer with
  | zero => exact h
  | succ fuel ih =>
    rw [drainLoop] at h
    split at h
    · exact h
    simp only at h
    split at h
    · split at h
      · exact h
      · exact mem_of_mem_drop (ih h)
    split at h
    · exact h
    split at h
    · cases h
    · exact mem_of_mem_drop (ih h)

/-- `drain` on a buffer that holds a text up to blank lines and space in front. -/
theorem drain_congr {buffer text : List UInt8} (visited : Visited)
    (h : R.byteFormat.lead buffer = R.byteFormat.lead text) :
    (drain R visited buffer).1 =
        visited.consumeAll ((R.byteFormat.scan [] text).1 ++
          earlyEntry R (R.byteFormat.scan [] text).2) ∧
      R.byteFormat.lead (drain R visited buffer).2 =
        R.byteFormat.lead (pendingPart R (R.byteFormat.scan [] text).2) := by
  obtain ⟨hout, hbuffer⟩ := @drainLoop_eq R buffer.length visited buffer (le_refl _)
  obtain ⟨hscan, hpart⟩ := LineFormat.scan_congr_lead h
  have hvalue := value_congr_lead
    (LineFormat.newline_notMem_scan R.byteFormat not_mem_nil buffer)
    (LineFormat.newline_notMem_scan R.byteFormat not_mem_nil text) hpart
  have hpending : R.byteFormat.lead (pendingPart R (R.byteFormat.scan [] buffer).2) =
      R.byteFormat.lead (pendingPart R (R.byteFormat.scan [] text).2) := by
    rw [pendingPart, pendingPart, hvalue]
    split
    · rfl
    · exact hpart
  refine ⟨?_, hbuffer.trans hpending⟩
  rw [drain, hout, hscan, earlyEntry, earlyEntry, hvalue]

theorem trimChars_decode_append {space : List UInt8}
    (h : ∀ b ∈ space, R.byteFormat.isSpace b = true) (text : List UInt8) :
    trimChars (R.decode (space ++ text)) = trimChars (R.decode text) := by
  induction space with
  | nil => rfl
  | cons b space ih =>
    have hb := isSpaceByte_ascii (h b mem_cons_self)
    have hwhite : isJsWhitespace (Char.ofNat b.toNat) = true :=
      isJsWhitespace_of_isBlank R (LineFormat.isBlank_of_isSpace hb.2)
    have hall : ∀ c ∈ [Char.ofNat b.toNat], isJsWhitespace c = true := fun c hc =>
      mem_singleton.mp hc ▸ hwhite
    have htail := ih fun c hc => h c (mem_cons_of_mem _ hc)
    rw [cons_append, R.decode_cons hb.1, ← htail]
    exact trimChars_append hall _

/-- Space in front does not hide the slot. -/
theorem firstLineSlot_congr_lead {line line' : List UInt8} (hline : (0x0a : UInt8) ∉ line)
    (hline' : (0x0a : UInt8) ∉ line') (h : R.byteFormat.lead line = R.byteFormat.lead line') :
    firstLineSlot R line = firstLineSlot R line' := by
  have hnewline : R.byteFormat.newline ∉ line := hline
  have hnewline' : R.byteFormat.newline ∉ line' := hline'
  obtain ⟨space, hspace, heq⟩ := LineFormat.exists_lead_line hnewline
  obtain ⟨space', hspace', heq'⟩ := LineFormat.exists_lead_line hnewline'
  have hsame : trimChars (R.decode line) = trimChars (R.decode line') := by
    rw [heq, heq', trimChars_decode_append hspace, trimChars_decode_append hspace', h]
  rw [firstLineSlot, firstLineSlot, hsame]

theorem findIdx?_newline {line rest : List UInt8} (h : (0x0a : UInt8) ∉ line) :
    (line ++ 0x0a :: rest).findIdx? (· == 0x0a) = some line.length := by
  have hline : line.findIdx? (· == 0x0a) = none := by
    rw [findIdx?_eq_none_iff]
    intro b hb
    exact beq_false_of_ne fun heq => h (heq ▸ hb)
  rw [findIdx?_append, hline, findIdx?_cons]
  simp

theorem findIdx?_newline_of_notMem {line : List UInt8} (h : (0x0a : UInt8) ∉ line) :
    line.findIdx? (· == 0x0a) = none := by
  rw [findIdx?_eq_none_iff]
  intro b hb
  exact beq_false_of_ne fun heq => h (heq ▸ hb)

theorem scan_part {part : List UInt8} (h : (0x0a : UInt8) ∉ part) (bytes : List UInt8) :
    R.byteFormat.scan [] (part ++ bytes) = R.byteFormat.scan part bytes := by
  have hpart : R.byteFormat.newline ∉ part := h
  rw [LineFormat.scan_append, LineFormat.scan_of_notMem hpart]
  rfl

theorem peelTitleSlot_of_newline (visited : Visited) {line : List UInt8} (rest : List UInt8)
    (h : (0x0a : UInt8) ∉ line) :
    StreamState.peelTitleSlot R ⟨visited, false, line ++ 0x0a :: rest⟩ =
      match firstLineSlot R line with
      | some slot => ⟨{ visited with titleSlot := some slot }, true, rest⟩
      | none => ⟨visited, true, line ++ 0x0a :: rest⟩ := by
  have hdrop : (line ++ 0x0a :: rest).drop (line.length + 1) = rest := by
    rw [drop_length_add_append]
    rfl
  rw [StreamState.peelTitleSlot, firstLineSlot]
  simp only [Bool.false_eq_true, if_false, findIdx?_newline h, take_left, hdrop]
  cases if trimChars (R.decode line) = [] then none
    else parseTitleSlotLine R (trimChars (R.decode line)) <;> rfl

theorem Follows.drained {visited : Visited} {buffer text : List UInt8}
    (h : R.byteFormat.lead buffer = R.byteFormat.lead text) :
    Follows R ⟨(drain R visited buffer).1, true, (drain R visited buffer).2⟩
      (LineState.token R ⟨visited.consumeAll (R.byteFormat.scan [] text).1, true,
        (R.byteFormat.scan [] text).2⟩ none) := by
  obtain ⟨hout, hbuffer⟩ := drain_congr visited h
  refine ⟨?_, rfl, hbuffer, ?_, fun h => nomatch h⟩
  · rw [hout, Visited.consumeAll_append]
    rfl
  exact newline_notMem_pendingPart R
    (LineFormat.newline_notMem_scan R.byteFormat not_mem_nil text)

variable {state : StreamState} {line : LineState}

theorem Follows.receive (h : Follows R state line) (chunk : List UInt8) :
    Follows R (state.receive R chunk)
      ((chunk.map some ++ [none]).foldl (LineState.token R) line) := by
  obtain ⟨visited, sawFirstLine, part⟩ := line
  obtain ⟨visited', sawFirstLine', buffer⟩ := state
  obtain ⟨rfl, rfl, hlead, hpart, hbuffer⟩ := h
  have hlead' : R.byteFormat.lead (buffer ++ chunk) = R.byteFormat.lead (part ++ chunk) :=
    LineFormat.lead_append_congr hlead chunk
  rw [List.foldl_append, foldl_cons, foldl_nil]
  cases sawFirstLine' with
  | true =>
    have hpeel : StreamState.peelTitleSlot R ⟨visited', true, buffer ++ chunk⟩ =
        ⟨visited', true, buffer ++ chunk⟩ := rfl
    rw [foldl_token_scan, StreamState.receive]
    simp only [hpeel]
    rw [← scan_part hpart]
    exact Follows.drained hlead'
  | false =>
    by_cases hchunk : (0x0a : UInt8) ∈ chunk
    · obtain ⟨before, after, rfl, hbefore⟩ := eq_append_cons_of_mem hchunk
      have hline : (0x0a : UInt8) ∉ buffer ++ before := by
        simp [hbuffer rfl, hbefore]
      have hline' : (0x0a : UInt8) ∉ part ++ before := by
        simp [hpart, hbefore]
      have hslot : firstLineSlot R (buffer ++ before) = firstLineSlot R (part ++ before) :=
        firstLineSlot_congr_lead hline hline' (LineFormat.lead_append_congr hlead before)
      have hpeel := @peelTitleSlot_of_newline R visited' _ after hline
      rw [hslot, append_assoc] at hpeel
      rw [map_append, List.foldl_append, foldl_token_of_notMem R hbefore, map_cons,
        foldl_cons, LineState.token_newline, LineState.newline, StreamState.receive]
      simp only [Bool.false_eq_true, if_false, hpeel]
      cases firstLineSlot R (part ++ before) with
      | some =>
        rw [foldl_token_scan]
        exact Follows.drained rfl
      | none =>
        have hnewline : R.byteFormat.newline ∉ part ++ before := hline'
        have hscan : R.byteFormat.scan [] (part ++ (before ++ 0x0a :: after)) =
            (R.byteFormat.outcome (part ++ before) ++ (R.byteFormat.scan [] after).1,
              (R.byteFormat.scan [] after).2) := by
          rw [← append_assoc]
          exact LineFormat.scan_line hnewline after
        have hdrained := @Follows.drained R visited' _ _ hlead'
        rw [hscan, Visited.consumeAll_append] at hdrained
        rw [foldl_token_scan]
        exact hdrained
    have hall : (0x0a : UInt8) ∉ buffer ++ chunk := by
      simp [hbuffer rfl, hchunk]
    have hall' : R.byteFormat.newline ∉ part ++ chunk := by
      have h : (0x0a : UInt8) ∉ part ++ chunk := by simp [hpart, hchunk]
      exact h
    have hpeel : StreamState.peelTitleSlot R ⟨visited', false, buffer ++ chunk⟩ =
        ⟨visited', false, buffer ++ chunk⟩ := by
      rw [StreamState.peelTitleSlot]
      simp [findIdx?_newline_of_notMem hall]
    obtain ⟨hout, hrest⟩ := drain_congr visited' hlead'
    rw [LineFormat.scan_of_notMem hall', nil_append] at hout hrest
    rw [foldl_token_of_notMem R hchunk, StreamState.receive]
    simp only [hpeel]
    exact ⟨hout, rfl, hrest, newline_notMem_pendingPart R hall',
      fun _ hmem => hall (mem_drainLoop hmem)⟩

theorem follows_tokens (h : Follows R state line) :
    Follows R (chunks.foldl (StreamState.receive R) state)
      ((tokens chunks).foldl (LineState.token R) line) := by
  induction chunks generalizing state line with
  | nil => exact h
  | cons chunk chunks ih =>
    rw [tokens, flatMap_cons, List.foldl_append, ← tokens, foldl_cons]
    exact ih (h.receive chunk)

theorem Follows.initial : Follows R .initial ⟨⟨none, false, [], 0⟩, false, []⟩ :=
  ⟨rfl, rfl, rfl, not_mem_nil, fun _ => not_mem_nil⟩

/-- What the stream has loaded when nothing more arrives. -/
def Visited.result (visited : Visited) : SessionLoadResult :=
  ⟨visited.entries, visited.titleSlot, visited.malformedRecords⟩

theorem Follows.finish (h : Follows R state line) :
    state.finish R = (line.visited.consumeAll (R.byteFormat.outcome line.part)).result := by
  obtain ⟨visited, sawFirstLine, part⟩ := line
  obtain ⟨visited', sawFirstLine', buffer⟩ := state
  obtain ⟨rfl, rfl, hlead, hpart, hbuffer⟩ := h
  have hnewline : R.byteFormat.newline ∉ part := hpart
  rw [StreamState.finish]
  by_cases hlast : buffer ≠ [] ∧ buffer.getLast? ≠ some 0x0a
  · have hscan : R.byteFormat.scan [] (part ++ [0x0a]) = (R.byteFormat.outcome part, []) := by
      have hline := LineFormat.scan_line hnewline []
      rw [LineFormat.scan, append_nil] at hline
      exact hline
    obtain ⟨hout, -⟩ := drain_congr visited' (LineFormat.lead_append_congr hlead [0x0a])
    have hvalue : R.byteFormat.value [] = none := R.byteFormat.value_nil
    rw [hscan, earlyEntry, hvalue] at hout
    simp only [if_pos hlast, hout, Option.toList_none, map_nil, append_nil]
    rfl
  have hnil : R.byteFormat.lead part = [] := by
    rw [← hlead]
    by_contra hne
    obtain ⟨blank, -, heq⟩ := LineFormat.exists_lead R.byteFormat buffer
    have hend : (R.byteFormat.lead buffer).getLast? = some 0x0a := by
      have hne' : buffer ≠ [] := fun h => hne (by rw [h]; rfl)
      have hbufferEnd : buffer.getLast? = some 0x0a := by
        by_contra hcontra
        exact hlast ⟨hne', hcontra⟩
      rw [heq, getLast?_append_of_ne_nil _ hne] at hbufferEnd
      exact hbufferEnd
    have hmem : (0x0a : UInt8) ∈ R.byteFormat.lead part := hlead ▸ mem_of_getLast? hend
    exact hpart ((dropWhile_sublist _).subset hmem)
  have houtcome : R.byteFormat.outcome part = [] := by
    rw [← LineFormat.outcome_lead hnewline, hnil, LineFormat.outcome_nil]
  simp only [if_neg hlast, houtcome]
  rfl

end Steps

end Loader

end BreadboardTui
