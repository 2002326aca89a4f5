import BreadboardTui.Js.Collections
import BreadboardTui.Loader.Jsonl

/-!
# Loading a session

A session file may start with a title slot, a line of its own that overrides the title in the
header. `parseSessionContent` loads a decoded text; `loadEntriesFromFileStream` loads the bytes of a
file as they arrive, and keeps the line that has not ended in a buffer.
-/

namespace BreadboardTui

open List

namespace Loader

/-! ### The title slot -/

inductive SessionTitleSource where
  | auto
  | user
  deriving DecidableEq, Repr

def SessionTitleSource.name : SessionTitleSource → String
  | .auto => "auto"
  | .user => "user"

structure SessionTitleSlotEntry where
  title : String
  updatedAt : String
  pad : String
  source : Option SessionTitleSource
  deriving DecidableEq, Repr

structure SessionTitleUpdate where
  title : String
  source : Option SessionTitleSource
  updatedAt : String
  deriving DecidableEq, Repr

/-- `isSessionTitleSource`, where `undefined` is allowed; the outer `none` refuses. -/
def titleSource? : JsValue → Option (Option SessionTitleSource)
  | .undefined => some none
  | .string "auto" => some (some .auto)
  | .string "user" => some (some .user)
  | _ => none

def parseTitleSlotObject : JsValue → Option SessionTitleSlotEntry
  | .object fields =>
    match getField fields "type", getField fields "v", getField fields "title",
      getField fields "updatedAt", getField fields "pad", titleSource? (getField fields "source") with
    | .string "title", .number (.integer 1), .string title, .string updatedAt, .string pad,
      some source => some ⟨title, updatedAt, pad, source⟩
    | _, _, _, _, _, _ => none
  | _ => none

def parseTitleSlotLine (R : JsonlRuntime) (line : List Char) : Option SessionTitleSlotEntry :=
  (R.parse line).bind parseTitleSlotObject

def titleUpdateFromSlot (slot : SessionTitleSlotEntry) : SessionTitleUpdate :=
  ⟨slot.title, slot.source, slot.updatedAt⟩

/-- `splitTitleSlot`: the body and the slot. -/
def splitTitleSlot (R : JsonlRuntime) (content : List Char) :
    List Char × Option SessionTitleUpdate :=
  match content.findIdx? (· == '\n') with
  | none => (content, none)
  | some newlineIndex =>
    match parseTitleSlotLine R (content.take newlineIndex) with
    | none => (content, none)
    | some slot => (content.drop (newlineIndex + 1), some (titleUpdateFromSlot slot))

/-- `isValidSessionHeader`, on the fields of an entry. -/
def isValidSessionHeader (fields : List (String × JsValue)) : Bool :=
  (getField fields "type").isString "session" &&
    match getField fields "id" with
    | .string _ => true
    | _ => false

def applyTitleSlot (slot : Option SessionTitleUpdate) (entry : JsValue) : JsValue :=
  match slot, entry with
  | some slot, .object fields =>
    if isValidSessionHeader fields then
      let titled := if slot.title = "" then JsMap.delete fields "title"
        else JsMap.set "title" (.string slot.title) fields
      match slot.source with
      | some source => .object (JsMap.set "titleSource" (.string source.name) titled)
      | none => .object (JsMap.delete titled "titleSource")
    else entry
  | _, _ => entry

structure SessionLoadResult where
  entries : List JsValue
  titleSlot : Option SessionTitleUpdate
  malformedRecords : ℕ

def parseSessionContent (R : JsonlRuntime) (content : List Char) : SessionLoadResult :=
  let split := splitTitleSlot R content
  let parsed := parseJsonlLenient R split.1
  ⟨parsed.1.modifyHead (applyTitleSlot split.2), split.2, parsed.2⟩

/-! ### The stream -/

/-- What has been visited: the entries and the malformed records that
`loadEntriesFromFileStream` collects, and the slot for the first entry. -/
structure Visited where
  titleSlot : Option SessionTitleUpdate
  sawFirstEntry : Bool
  entries : List JsValue
  malformedRecords : ℕ

def Visited.visit (visited : Visited) (value : JsValue) : Visited :=
  { visited with
    sawFirstEntry := true
    entries := visited.entries ++
      [if visited.sawFirstEntry then value else applyTitleSlot visited.titleSlot value] }

def Visited.onMalformedRecord (visited : Visited) : Visited :=
  { visited with malformedRecords := visited.malformedRecords + 1 }

/-- `drain`; a round consumes at least one byte. -/
def drainLoop (R : JsonlRuntime) : ℕ → Visited → List UInt8 → Visited × List UInt8
  | 0, visited, buffer => (visited, buffer)
  | fuel + 1, visited, buffer =>
    if buffer = [] then (visited, buffer)
    else
      let result := R.parseBytes buffer
      let visited := result.values.foldl Visited.visit visited
      if result.error then
        match indexFrom 0x0a result.read buffer with
        | none => (visited, buffer)
        | some nextNewline =>
          let nonWhitespace :=
            ((buffer.take nextNewline).drop result.read).any (!isSpaceByte ·)
          drainLoop R fuel (if nonWhitespace then visited.onMalformedRecord else visited)
            (buffer.drop (nextNewline + 1))
      else if result.read = 0 then (visited, buffer)
      else if result.done then (visited, [])
      else drainLoop R fuel visited (buffer.drop result.read)

def drain (R : JsonlRuntime) (visited : Visited) (buffer : List UInt8) : Visited × List UInt8 :=
  drainLoop R buffer.length visited buffer

structure StreamState where
  visited : Visited
  sawFirstLine : Bool
  buffer : List UInt8

def StreamState.initial : StreamState := ⟨⟨none, false, [], 0⟩, false, []⟩

/-- The check of the first line, once a newline has arrived. -/
def StreamState.peelTitleSlot (R : JsonlRuntime) (state : StreamState) : StreamState :=
  if state.sawFirstLine then state
  else
    match state.buffer.findIdx? (· == 0x0a) with
    | none => state
    | some newline =>
      let firstLine := trimChars (R.decode (state.buffer.take newline))
      match if firstLine = [] then none else parseTitleSlotLine R firstLine with
      | none => { state with sawFirstLine := true }
      | some slot =>
        ⟨{ state.visited with titleSlot := some (titleUpdateFromSlot slot) }, true,
          state.buffer.drop (newline + 1)⟩

/-- One chunk of the file. -/
def StreamState.receive (R : JsonlRuntime) (state : StreamState) (chunk : List UInt8) :
    StreamState :=
  let state := { state with buffer := state.buffer ++ chunk }.peelTitleSlot R
  let drained := drain R state.visited state.buffer
  ⟨drained.1, state.sawFirstLine, drained.2⟩

/-- The end of the file: a last line without a newline is terminated. -/
def StreamState.finish (R : JsonlRuntime) (state : StreamState) : SessionLoadResult :=
  let visited :=
    if state.buffer ≠ [] ∧ state.buffer.getLast? ≠ some 0x0a then
      (drain R state.visited (state.buffer ++ [0x0a])).1
    else state.visited
  ⟨visited.entries, visited.titleSlot, visited.malformedRecords⟩

/-- `loadEntriesFromFileStream`, for a file that arrives in the given chunks. -/
def loadEntriesFromFileStream (R : JsonlRuntime) (chunks : List (List UInt8)) :
    SessionLoadResult :=
  (chunks.foldl (StreamState.receive R) .initial).finish R

/-! ### Draining the buffer -/

/-- What the visitor does with what is found on a line. -/
def Visited.consume (visited : Visited) : Outcome UInt8 JsValue → Visited
  | .entry value => visited.visit value
  | .malformed _ => visited.onMalformedRecord

def Visited.consumeAll (visited : Visited) (outcomes : List (Outcome UInt8 JsValue)) : Visited :=
  outcomes.foldl Visited.consume visited

theorem Visited.consumeAll_append (visited : Visited) (os os' : List (Outcome UInt8 JsValue)) :
    visited.consumeAll (os ++ os') = (visited.consumeAll os).consumeAll os' := List.foldl_append

theorem Visited.consumeAll_entries (visited : Visited) (values : List JsValue) :
    visited.consumeAll (values.map .entry) = values.foldl Visited.visit visited := by
  rw [Visited.consumeAll, foldl_map]
  rfl

/-- The part of a line that stays in the buffer: nothing, where it is a record already. -/
def pendingPart (R : JsonlRuntime) (part : List UInt8) : List UInt8 :=
  if (R.byteFormat.value part).isSome then [] else part

/-- What is visited of a part of a line at the end of a chunk. -/
def earlyEntry (R : JsonlRuntime) (part : List UInt8) : List (Outcome UInt8 JsValue) :=
  (R.byteFormat.value part).toList.map .entry

theorem value_congr_lead {σ : Type} [DecidableEq σ] {fmt : LineFormat σ JsValue}
    {line line' : List σ} (h : fmt.newline ∉ line) (h' : fmt.newline ∉ line')
    (hlead : fmt.lead line = fmt.lead line') : fmt.value line = fmt.value line' := by
  rw [← LineFormat.value_lead h, ← LineFormat.value_lead h', hlead]

variable (R : JsonlRuntime)

theorem any_not_space_of_isMalformed {line : List UInt8}
    (h : IsMalformed R.byteFormat line) : line.any (!isSpaceByte ·) = true := by
  obtain ⟨-, b, hb, hspace⟩ := h
  have hbyte : isSpaceByte b = false := hspace
  rw [any_eq_true]
  exact ⟨b, hb, by rw [hbyte, Bool.not_false]⟩

theorem value_pendingPart (part : List UInt8) : R.byteFormat.value (pendingPart R part) = none := by
  rw [pendingPart]
  split
  · exact R.byteFormat.value_nil
  · next h => exact Option.not_isSome_iff_eq_none.mp h

variable {part : List UInt8}

theorem pendingPart_of_none (h : R.byteFormat.value part = none) : pendingPart R part = part := by
  rw [pendingPart, h]
  rfl

theorem newline_notMem_pendingPart
    (h : R.byteFormat.newline ∉ part) : R.byteFormat.newline ∉ pendingPart R part := by
  rw [pendingPart]
  split
  · exact not_mem_nil
  · exact h

/-- `drain` visits what the buffer holds, and leaves the part of a line that is no record yet, up to
white space. -/
theorem drainLoop_eq (R : JsonlRuntime) {fuel : ℕ} {visited : Visited} {buffer : List UInt8}
    (hfuel : buffer.length ≤ fuel) :
    (drainLoop R fuel visited buffer).1 =
        visited.consumeAll ((R.byteFormat.scan [] buffer).1 ++
          earlyEntry R (R.byteFormat.scan [] buffer).2) ∧
      R.byteFormat.lead (drainLoop R fuel visited buffer).2 =
        R.byteFormat.lead (pendingPart R (R.byteFormat.scan [] buffer).2) := by
  have hnil : earlyEntry R [] = [] ∧ pendingPart R [] = [] := by
    have hvalue : R.byteFormat.value [] = none := R.byteFormat.value_nil
    rw [earlyEntry, pendingPart, hvalue]
    exact ⟨rfl, rfl⟩
  induction fuel generalizing visited buffer with
  | zero =>
    obtain rfl := eq_nil_of_length_eq_zero (Nat.le_zero.mp hfuel)
    rw [LineFormat.scan, hnil.1, hnil.2]
    exact ⟨rfl, rfl⟩
  | succ fuel ih =>
    rw [drainLoop]
    by_cases hempty : buffer = []
    · rw [if_pos hempty, hempty, LineFormat.scan, hnil.1, hnil.2]
      exact ⟨rfl, rfl⟩
    rw [if_neg hempty]
    rcases R.parsesBytes buffer with
      ⟨before, line, after, values, hinput, hbefore, hline, hmalformed, herror, hvalues, hread⟩ |
      ⟨values, line, blank, hscan, herror, hvalues, hblank, hunread, hdone⟩
    · have hnewline : (0x0a : UInt8) ∉ line := hline
      have hindex : indexFrom 0x0a before.length buffer = some (before.length + line.length) := by
        rw [hinput]
        exact indexFrom_line hnewline
      have hslice : (buffer.take (before.length + line.length)).drop before.length = line := by
        rw [hinput, take_length_add_append, drop_left, take_left]
      have hrest : buffer.drop (before.length + line.length + 1) = after := by
        rw [hinput, add_assoc, drop_length_add_append, drop_length_add_append]
        rfl
      have hlength : after.length ≤ fuel := by
        rw [hinput] at hfuel
        simp only [length_append, length_cons] at hfuel
        omega
      have hscan : R.byteFormat.scan [] buffer =
          (values.map .entry ++ (.malformed (R.byteFormat.lead line) ::
            (R.byteFormat.scan [] after).1), (R.byteFormat.scan [] after).2) := by
        rw [hinput, LineFormat.scan_append, hbefore, LineFormat.scan_line hline,
          outcome_of_isMalformed hline hmalformed]
        rfl
      have hvisited : visited.consumeAll
          (values.map .entry ++ [.malformed (R.byteFormat.lead line)]) =
          (values.foldl Visited.visit visited).onMalformedRecord := by
        rw [Visited.consumeAll_append, Visited.consumeAll_entries]
        rfl
      simp only [herror, if_true, hread, hindex, hslice, hrest, hvalues,
        any_not_space_of_isMalformed R hmalformed, hscan]
      obtain ⟨hout, hbuffer⟩ := @ih (values.foldl Visited.visit visited).onMalformedRecord
        after hlength
      refine ⟨?_, hbuffer⟩
      rw [hout, ← hvisited, ← Visited.consumeAll_append]
      simp
    have hline : R.byteFormat.newline ∉ line := by
      have h := LineFormat.newline_notMem_scan R.byteFormat not_mem_nil buffer
      rwa [hscan] at h
    have hvisited : visited.consumeAll (values.map .entry ++ earlyEntry R line) =
        (values ++ (R.byteFormat.value line).toList).foldl Visited.visit visited := by
      rw [earlyEntry, ← map_append, Visited.consumeAll_entries]
    have hpending : R.byteFormat.lead (buffer.drop (R.parseBytes buffer).read) =
        R.byteFormat.lead (pendingPart R line) := by
      rw [hunread, LineFormat.lead_append hblank]
      rfl
    generalize R.parseBytes buffer = result at *
    simp only [herror, Bool.false_eq_true, if_false, hvalues, hscan]
    rw [hvisited]
    by_cases hread : result.read = 0
    · rw [if_pos hread]
      rw [hread, drop_zero] at hpending
      exact ⟨rfl, hpending⟩
    rw [if_neg hread]
    by_cases hend : result.done = true
    · rw [if_pos hend]
      rw [LineFormat.lead_of_blank (hdone hend)] at hpending
      exact ⟨rfl, hpending⟩
    have hlength : (buffer.drop result.read).length ≤ fuel := by
      rw [length_drop]
      omega
    rw [if_neg hend]
    obtain ⟨hout, hbuffer⟩ := @ih
      ((values ++ (R.byteFormat.value line).toList).foldl Visited.visit visited)
      (buffer.drop result.read) hlength
    -- the rest holds the part of the line again, and nothing else
    obtain ⟨hrestOut, hrestPart⟩ := LineFormat.scan_congr_lead hpending
    rw [LineFormat.scan_of_notMem (newline_notMem_pendingPart R hline), nil_append]
      at hrestOut hrestPart
    have hvalue := value_congr_lead
      (LineFormat.newline_notMem_scan R.byteFormat not_mem_nil _)
      (newline_notMem_pendingPart R hline) hrestPart
    rw [value_pendingPart] at hvalue
    rw [hout, hbuffer, hrestOut, earlyEntry, hvalue, pendingPart_of_none R hvalue]
    exact ⟨rfl, hrestPart⟩

end Loader

end BreadboardTui
