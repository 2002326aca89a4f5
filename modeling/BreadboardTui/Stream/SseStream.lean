import BreadboardTui.Hashline.Tokenizer

/-!
# Lines and server-sent events of a byte stream

`packages/utils/src/stream.ts`: `readLines` and `readSseEvents` take a stream in chunks and keep the
bytes of a line that has not ended in a `ConcatSink`.

* A byte or a UTF-16 unit is a number, `0x0a` is the line feed in both.
* The sink is a buffer and the length of its part in use. A piece that is yielded is given as it is
  at that moment: the buffer is written over later.
* `feed` is what both readers do with a chunk; it does not depend on where the chunks are cut.
-/

namespace BreadboardTui.Stream

open List Hashline

/-! ### The sink -/

/-- `Buffer.allocUnsafe`: a buffer of a size, with any bytes in it. -/
structure Allocator where
  allocUnsafe : ℕ → List ℕ
  length_allocUnsafe : ∀ size, (allocUnsafe size).length = size

instance : Inhabited Allocator := ⟨⟨fun size => replicate size 0, fun _ => length_replicate⟩⟩

/-- The buffer (none is an empty one) and how much of it is in use. -/
structure ConcatSink where
  space : List ℕ := []
  length : ℕ := 0
  length_le : length ≤ space.length := by decide

namespace ConcatSink

variable (alloc : Allocator) (sink : ConcatSink)

/-- `flush`. -/
def content : List ℕ := sink.space.take sink.length

def isEmpty : Bool := sink.length == 0

def clear : ConcatSink := ⟨sink.space, 0, Nat.zero_le _⟩

def ensureCapacity (size : ℕ) : List ℕ :=
  if size ≤ sink.space.length then sink.space
  else
    sink.content ++ (alloc.allocUnsafe (max size (sink.space.length * 2))).drop sink.length

theorem length_content : sink.content.length = sink.length := by
  rw [content, length_take, Nat.min_eq_left sink.length_le]

variable (size : ℕ)

theorem le_length_ensureCapacity : size ≤ (sink.ensureCapacity alloc size).length := by
  rw [ensureCapacity]
  split
  · assumption
  have := sink.length_le
  rw [length_append, length_content, length_drop, alloc.length_allocUnsafe]
  omega

theorem take_ensureCapacity : (sink.ensureCapacity alloc size).take sink.length = sink.content := by
  rw [ensureCapacity]
  split
  · rfl
  · exact take_left' sink.length_content

/-- `space.set(chunk, offset)`. -/
def setAt (space chunk : List ℕ) (offset : ℕ) : List ℕ :=
  space.take offset ++ chunk ++ space.drop (offset + chunk.length)

def append (chunk : List ℕ) : ConcatSink :=
  if chunk = [] then sink
  else
    ⟨setAt (sink.ensureCapacity alloc (sink.length + chunk.length)) chunk sink.length,
      sink.length + chunk.length, by
        have := sink.le_length_ensureCapacity alloc (sink.length + chunk.length)
        rw [setAt, length_append, length_append, length_take, length_drop]
        omega⟩

@[simp] theorem content_append (chunk : List ℕ) :
    (sink.append alloc chunk).content = sink.content ++ chunk := by
  rw [append]
  split
  · next h => rw [h, append_nil]
  change take (sink.length + chunk.length) (setAt ..) = _
  rw [setAt, take_ensureCapacity]
  exact take_left' (by rw [length_append, length_content])

@[simp] theorem content_clear : sink.clear.content = [] := rfl

theorem isEmpty_iff : sink.isEmpty = true ↔ sink.content = [] := by
  rw [isEmpty, beq_iff_eq, ← length_eq_zero_iff, length_content]

/-- `appendAndFlushLines`: the pieces it yields, and the sink after them. -/
def appendAndFlushLines (sink : ConcatSink) (chunk : List ℕ) : List (List ℕ) × ConcatSink :=
  if 0x0a ∈ chunk then
    let suffix := chunk.takeWhile (· != 0x0a)
    let rest := chunk.drop (suffix.length + 1)
    let line := if sink.isEmpty then suffix else (sink.append alloc suffix).content
    let next := if sink.isEmpty then sink else (sink.append alloc suffix).clear
    let (lines, last) := appendAndFlushLines next rest
    (line :: lines, last)
  else (([] : List (List ℕ)), sink.append alloc chunk)
termination_by chunk.length
decreasing_by
  next h =>
  have := length_pos_of_mem h
  rw [length_drop]
  omega

/-- `lastIndexOf(LF) + 1`. -/
def completeEnd (chunk : List ℕ) : ℕ :=
  chunk.length - (chunk.reverse.takeWhile (· != 0x0a)).length

/-- `appendAndFlushText`, before the decoder: the bytes for it, and the sink. -/
def appendAndFlushText (chunk : List ℕ) : Option (List ℕ) × ConcatSink :=
  if completeEnd chunk = 0 then (none, sink.append alloc chunk)
  else
    let complete := chunk.take (completeEnd chunk)
    let batch := if sink.isEmpty then complete else (sink.append alloc complete).content
    let next := if sink.isEmpty then sink else (sink.append alloc complete).clear
    (some batch, next.append alloc (chunk.drop (completeEnd chunk)))

end ConcatSink

/-! ### Lines of a stream in parts -/

/-- The lines that end in a text, with `part` in front of the first, and the line that does not. -/
def feed (part : List ℕ) : List ℕ → List (List ℕ) × List ℕ
  | [] => ([], part)
  | c :: text =>
    if c = 0x0a then (part :: (feed [] text).1, (feed [] text).2) else feed (part ++ [c]) text

/-- Lines with their ends. -/
def joinLines (lines : List (List ℕ)) : List ℕ := lines.flatMap (· ++ [0x0a])

section Feed

variable {part text line : List ℕ}

theorem joinLines_cons (line : List ℕ) (lines : List (List ℕ)) :
    joinLines (line :: lines) = line ++ [0x0a] ++ joinLines lines := flatMap_cons

theorem feed_append (part text text' : List ℕ) :
    feed part (text ++ text') = ((feed part text).1 ++ (feed (feed part text).2 text').1,
      (feed (feed part text).2 text').2) := by
  induction text generalizing part with
  | nil => rfl
  | cons c text ih =>
    rw [cons_append, feed, feed]
    split
    · rw [ih, cons_append]
    · rw [ih]

theorem feed_of_notMem (h : 0x0a ∉ text) : feed part text = ([], part ++ text) := by
  induction text generalizing part with
  | nil => rw [feed, append_nil]
  | cons c text ih =>
    rw [mem_cons, not_or] at h
    rw [feed, if_neg (Ne.symm h.1), ih h.2, append_assoc, singleton_append]

theorem feed_line (h : 0x0a ∉ line) (text : List ℕ) :
    feed part (line ++ 0x0a :: text) = ((part ++ line) :: (feed [] text).1, (feed [] text).2) := by
  rw [feed_append, feed_of_notMem h, feed, if_pos rfl, nil_append]

/-- Splitting at line feeds gives the lines and what is left. -/
theorem splitOn_eq_feed (h : 0x0a ∉ part) (text : List ℕ) :
    (part ++ text).splitOn 0x0a = (feed part text).1 ++ [(feed part text).2] := by
  induction text generalizing part with
  | nil => rw [append_nil, splitOn_eq_singleton h, feed, nil_append]
  | cons c text ih =>
    rw [feed]
    split
    · next hc =>
      rw [hc, splitOn_append_cons_of_beq _ _ (beq_self_eq_true _), splitOn_eq_singleton h,
        ← nil_append text, ih not_mem_nil]
      rfl
    next hc =>
    rw [← @ih (part ++ [c]) (by simp [h, Ne.symm hc]), append_assoc, singleton_append]

theorem feed_spec (h : 0x0a ∉ part) (text : List ℕ) :
    (∀ line ∈ (feed part text).1, 0x0a ∉ line) ∧ 0x0a ∉ (feed part text).2 ∧
      part ++ text = joinLines (feed part text).1 ++ (feed part text).2 := by
  induction text generalizing part with
  | nil => exact ⟨fun _ hline => (by cases hline), h, by simp [feed, joinLines]⟩
  | cons c text ih =>
    rw [feed]
    split
    · next hc =>
      obtain ⟨hlines, hrest, htext⟩ := ih not_mem_nil
      refine ⟨forall_mem_cons.mpr ⟨h, hlines⟩, hrest, ?_⟩
      rw [nil_append] at htext
      rw [joinLines_cons, append_assoc, append_assoc, ← htext, hc]
      rfl
    next hc =>
    obtain ⟨hlines, hrest, htext⟩ := @ih (part ++ [c]) (by simp [h, Ne.symm hc])
    exact ⟨hlines, hrest, by rw [← htext, append_assoc, singleton_append]⟩

theorem feed_joinLines {lines : List (List ℕ)} (h : ∀ line ∈ lines, 0x0a ∉ line)
    (text : List ℕ) : feed [] (joinLines lines ++ text) =
      (lines ++ (feed [] text).1, (feed [] text).2) := by
  induction lines with
  | nil => rfl
  | cons line lines ih =>
    rw [forall_mem_cons] at h
    rw [joinLines_cons, append_assoc, append_assoc, singleton_append, feed_line h.1, ih h.2]
    rfl

theorem bne_of_notMem (h : 0x0a ∉ text) (c : ℕ) (hc : c ∈ text) : (c != 0x0a) = true := by
  rw [bne_iff_ne]
  rintro rfl
  exact h hc

end Feed

/-! ### What the sink does with a chunk -/

namespace ConcatSink

variable (alloc : Allocator) (sink : ConcatSink)

/-- The sink gives its content and the first line of the chunk. -/
theorem appendAndFlushLines_line {line : List ℕ} (h : 0x0a ∉ line) (text : List ℕ) :
    ∃ next : ConcatSink, next.content = [] ∧ sink.appendAndFlushLines alloc (line ++ 0x0a :: text) =
      ((sink.content ++ line) :: (next.appendAndFlushLines alloc text).1,
        (next.appendAndFlushLines alloc text).2) := by
  have htake : (line ++ 0x0a :: text).takeWhile (· != 0x0a) = line := by
    rw [takeWhile_append_of_pos (bne_of_notMem h)]
    simp
  have hdrop : (line ++ 0x0a :: text).drop (line.length + 1) = text := by
    rw [← drop_drop, drop_left]
    rfl
  refine ⟨if sink.isEmpty then sink else (sink.append alloc line).clear, ?_, ?_⟩
  · split
    · next hempty => exact sink.isEmpty_iff.mp hempty
    · rfl
  rw [appendAndFlushLines, if_pos (mem_append_right _ (mem_cons_self ..))]
  simp only [htake, hdrop]
  split
  · next hempty => rw [sink.isEmpty_iff.mp hempty, nil_append]
  · rw [content_append]

theorem appendAndFlushLines_eq (chunk : List ℕ) :
    (sink.appendAndFlushLines alloc chunk).1 = (feed sink.content chunk).1 ∧
      (sink.appendAndFlushLines alloc chunk).2.content = (feed sink.content chunk).2 := by
  induction hn : chunk.length using Nat.strong_induction_on generalizing sink chunk with
  | _ n ih =>
    by_cases h : 0x0a ∈ chunk
    · obtain ⟨line, text, rfl, hline⟩ := eq_append_cons_of_mem h
      obtain ⟨next, hnext, hflush⟩ := sink.appendAndFlushLines_line alloc hline text
      have ih := ih text.length (by rw [← hn, length_append, length_cons]; omega) next text rfl
      rw [hnext] at ih
      rw [hflush, feed_line hline, ih.1, ih.2]
      exact ⟨rfl, rfl⟩
    rw [appendAndFlushLines, if_neg h, feed_of_notMem h, content_append]
    exact ⟨rfl, rfl⟩

theorem completeEnd_append {text : List ℕ} (h : 0x0a ∉ text) (line : List ℕ) :
    completeEnd (line ++ 0x0a :: text) = line.length + 1 := by
  have htake : (line ++ 0x0a :: text).reverse.takeWhile (· != 0x0a) = text.reverse := by
    rw [reverse_append, reverse_cons, append_assoc, takeWhile_append_of_pos
      (bne_of_notMem fun hc => h (mem_reverse.mp hc))]
    simp
  rw [completeEnd, htake, length_reverse, length_append, length_cons]
  omega

theorem completeEnd_of_notMem {text : List ℕ} (h : 0x0a ∉ text) : completeEnd text = 0 := by
  rw [completeEnd, takeWhile_eq_self_iff.mpr (bne_of_notMem fun hc => h (mem_reverse.mp hc)),
    length_reverse, Nat.sub_self]

/-- The batch is the lines that end in the chunk, if there are any. -/
theorem appendAndFlushText_eq (hsink : 0x0a ∉ sink.content) (chunk : List ℕ) :
    (sink.appendAndFlushText alloc chunk).1 = (if (feed sink.content chunk).1 = [] then none
        else some (joinLines (feed sink.content chunk).1)) ∧
      (sink.appendAndFlushText alloc chunk).2.content = (feed sink.content chunk).2 := by
  by_cases h : 0x0a ∈ chunk
  · obtain ⟨text, line, hchunk, htext⟩ := eq_append_cons_of_mem (mem_reverse.mpr h)
    obtain rfl : chunk = line.reverse ++ 0x0a :: text.reverse := by
      rw [← reverse_reverse chunk, hchunk, reverse_append, reverse_cons, append_assoc]
      rfl
    rw [← mem_reverse] at htext
    generalize text.reverse = text at htext
    generalize line.reverse = line
    have hfeed : (feed sink.content (line ++ [0x0a])).2 = [] := by
      rw [feed_append, feed, if_pos rfl]
      rfl
    have hne : (feed sink.content (line ++ [0x0a])).1 ≠ [] := by
      rw [feed_append, feed, if_pos rfl]
      exact append_ne_nil_of_right_ne_nil _ (cons_ne_nil _ _)
    have hjoin := (feed_spec hsink (line ++ [0x0a])).2.2
    rw [hfeed, append_nil] at hjoin
    have htake : (line ++ 0x0a :: text).take (line.length + 1) = line ++ [0x0a] := by
      rw [append_cons, take_left' (by rw [length_append]; rfl)]
    have hdrop : (line ++ 0x0a :: text).drop (line.length + 1) = text := by
      rw [append_cons, drop_left' (by rw [length_append]; rfl)]
    rw [append_cons, feed_append, hfeed, feed_of_notMem htext, append_nil, nil_append, if_neg hne,
      ← append_cons, appendAndFlushText, completeEnd_append htext, if_neg (Nat.succ_ne_zero _),
      htake, hdrop, content_append, ← hjoin]
    split
    · next hempty =>
      rw [sink.isEmpty_iff.mp hempty]
      exact ⟨rfl, rfl⟩
    · exact ⟨by rw [← content_append], by rw [content_clear, nil_append]⟩
  rw [appendAndFlushText, completeEnd_of_notMem h, if_pos rfl, feed_of_notMem h, if_pos rfl,
    content_append]
  exact ⟨rfl, rfl⟩

end ConcatSink

/-! ### `readLines` -/

/-- What `readLines` yields, chunk by chunk. -/
def readLinesFrom (alloc : Allocator) (buffer : ConcatSink) : List (List ℕ) → List (List ℕ)
  | [] => if buffer.isEmpty then [] else [buffer.content]
  | chunk :: chunks =>
    let (lines, next) := buffer.appendAndFlushLines alloc chunk
    lines ++ readLinesFrom alloc next chunks

def readLines (alloc : Allocator) (chunks : List (List ℕ)) : List (List ℕ) :=
  readLinesFrom alloc {} chunks

/-- The pieces between the line feeds, the last one if it is not empty. -/
def linePieces (bytes : List ℕ) : List (List ℕ) :=
  if (bytes.splitOn 0x0a).getLast? = some [] then (bytes.splitOn 0x0a).dropLast
  else bytes.splitOn 0x0a

variable (bytes : List ℕ)

theorem linePieces_eq : linePieces bytes =
    (feed [] bytes).1 ++ if (feed [] bytes).2 = [] then [] else [(feed [] bytes).2] := by
  rw [linePieces, ← nil_append bytes, splitOn_eq_feed not_mem_nil, getLast?_concat, dropLast_concat,
    nil_append]
  by_cases hrest : (feed [] bytes).2 = []
  · rw [if_pos (congrArg some hrest), if_pos hrest, append_nil]
  · rw [if_neg fun h => hrest (Option.some.inj h), if_neg hrest]

theorem readLinesFrom_eq (alloc : Allocator) (buffer : ConcatSink) (chunks : List (List ℕ)) :
    readLinesFrom alloc buffer chunks = (feed buffer.content chunks.flatten).1 ++
      if (feed buffer.content chunks.flatten).2 = [] then []
      else [(feed buffer.content chunks.flatten).2] := by
  induction chunks generalizing buffer with
  | nil =>
    rw [readLinesFrom, flatten_nil, feed, nil_append]
    exact if_congr buffer.isEmpty_iff rfl rfl
  | cons chunk chunks ih =>
    obtain ⟨hlines, hnext⟩ := buffer.appendAndFlushLines_eq alloc chunk
    rw [flatten_cons, feed_append, append_assoc, ← hnext, ← ih, ← hlines]
    rfl

/-! ### Events -/

structure SseEventState where
  event : Option (List ℕ) := none
  data : Option (List ℕ) := none
  raw : List (List ℕ) := []
  id : Option (List ℕ) := none
  retry : Option ℕ := none
  deriving DecidableEq, Repr

structure ServerSentEvent where
  event : Option (List ℕ)
  data : List ℕ
  raw : List (List ℕ)
  id : Option (List ℕ)
  retry : Option ℕ
  deriving DecidableEq, Repr

def flushSseEvent (state : SseEventState) : Option ServerSentEvent × SseEventState :=
  if state.event = none ∧ state.data = none ∧ state.id = none ∧ state.retry = none then
    (none, { state with raw := [] })
  else
    (some ⟨state.event, state.data.getD [], state.raw, state.id, state.retry⟩, {})

/-- `Number(value)` of decimal digits, if it is a safe integer. -/
def safeInteger (value : Units) : Option ℕ :=
  let number := value.foldl (fun n code => 10 * n + (code - 0x30)) 0
  if number < 2 ^ 53 then some number else none

/-- A field, as the name in front of the first colon and the value behind it. -/
def setSseField (fieldName value : Units) (state : SseEventState) : SseEventState :=
  if fieldName = units "event" then { state with event := some value }
  else if fieldName = units "data" then
    { state with data := some (state.data.elim value (· ++ 0x0a :: value)) }
  else if fieldName = units "id" then
    if 0 ∈ value then state else { state with id := some value }
  else if fieldName = units "retry" ∧ value ≠ [] ∧ value.all isDigitCode = true then
    { state with retry := (safeInteger value).or state.retry }
  else state

def pushSseLine (line : Units) (state : SseEventState) : Option ServerSentEvent × SseEventState :=
  let line := if line.getLast? = some 0x0d then line.dropLast else line
  if line = [] then flushSseEvent state
  else
    let state := { state with raw := state.raw ++ [line] }
    if line.head? = some 0x3a then (none, state)
    else
      let fieldName := line.takeWhile (· != 0x3a)
      let value := line.drop (fieldName.length + 1)
      let value := if value.head? = some 0x20 then value.tail else value
      (none, setSseField fieldName value state)

/-- One line after another. -/
def pushSseLines (state : SseEventState) : List Units → List ServerSentEvent × SseEventState
  | [] => ([], state)
  | line :: lines =>
    let (event, next) := pushSseLine line state
    let (events, last) := pushSseLines next lines
    (event.toList ++ events, last)

variable (state : SseEventState)

theorem pushSseLines_append (lines lines' : List Units) : pushSseLines state (lines ++ lines') =
      ((pushSseLines state lines).1 ++ (pushSseLines (pushSseLines state lines).2 lines').1,
        (pushSseLines (pushSseLines state lines).2 lines').2) := by
  induction lines generalizing state with
  | nil => rfl
  | cons line lines ih =>
    rw [cons_append, pushSseLines, pushSseLines]
    simp [ih]

/-- An empty line in front of the end of the stream changes nothing. -/
theorem flushSseEvent_twice :
    (pushSseLine [] state).1.toList ++ (flushSseEvent (pushSseLine [] state).2).1.toList =
      (flushSseEvent state).1.toList := by
  change (flushSseEvent state).1.toList ++ (flushSseEvent (flushSseEvent state).2).1.toList = _
  have hflush : (flushSseEvent (flushSseEvent state).2).1 = none := by
    rw [flushSseEvent.eq_1 state]
    split
    · next h => exact congrArg Prod.fst (if_pos h)
    · rfl
  rw [hflush]
  exact append_nil _

/-- The events of a text, split at line feeds. -/
def sseEvents (text : Units) : List ServerSentEvent :=
  let last := pushSseLines {} (text.splitOn 0x0a)
  last.1 ++ (flushSseEvent last.2).1.toList

/-- `TextDecoder` on batches of whole lines and on the rest of a stream. -/
structure BatchDecoder where
  decode : List ℕ → Units
  decode_nil : decode [] = []
  decode_append : ∀ a b, a.getLast? = some 0x0a → b.getLast? = some 0x0a →
    decode (a ++ b) = decode a ++ decode b
  decode_newline : ∀ line, 0x0a ∉ line → decode (line ++ [0x0a]) = decode line ++ [0x0a]
  decode_line : ∀ line, 0x0a ∉ line → 0x0a ∉ decode line

/-- Each byte is a code unit, as in a text of ASCII. -/
instance : Inhabited BatchDecoder :=
  ⟨⟨id, rfl, fun _ _ _ _ => rfl, fun _ _ => rfl, fun _ h => h⟩⟩

namespace BatchDecoder

variable (decoder : BatchDecoder) (alloc : Allocator)

/-- The decoded text of a stream: its whole lines, and the rest. -/
def text (bytes : List ℕ) : Units :=
  decoder.decode (bytes.take (ConcatSink.completeEnd bytes)) ++
    decoder.decode (bytes.drop (ConcatSink.completeEnd bytes))

/-- The lines of a batch. A text that does not end a line would keep the loop of the source going. -/
def pushText (state : SseEventState) (text : Units) :
    Option (List ServerSentEvent × SseEventState) :=
  if (feed [] text).2 = [] then some (pushSseLines state (feed [] text).1) else none

def readSseEventsFrom (lineBuffer : ConcatSink) (state : SseEventState) :
    List (List ℕ) → Option (List ServerSentEvent)
  | [] =>
    let (event, state) :=
      if lineBuffer.isEmpty then (none, state)
      else pushSseLine (decoder.decode lineBuffer.content) state
    some (event.toList ++ (flushSseEvent state).1.toList)
  | chunk :: chunks =>
    match lineBuffer.appendAndFlushText alloc chunk with
    | (none, next) => readSseEventsFrom next state chunks
    | (some batch, next) => do
      let (events, state) ← pushText state (decoder.decode batch)
      let later ← readSseEventsFrom next state chunks
      return events ++ later

/-- All events of a stream, or `none` if a loop goes on forever. -/
def readSseEvents (chunks : List (List ℕ)) : Option (List ServerSentEvent) :=
  decoder.readSseEventsFrom alloc {} {} chunks

variable {lines : List (List ℕ)}

theorem decode_joinLines (h : ∀ line ∈ lines, 0x0a ∉ line) :
    decoder.decode (joinLines lines) = joinLines (lines.map decoder.decode) := by
  induction lines with
  | nil => exact decoder.decode_nil
  | cons line lines ih =>
    rw [forall_mem_cons] at h
    rw [joinLines_cons, map_cons, joinLines_cons, ← ih h.2, ← decoder.decode_newline line h.1]
    rcases eq_nil_or_concat lines with rfl | ⟨before, last, rfl⟩
    · rw [joinLines, flatMap_nil, decoder.decode_nil, append_nil, append_nil]
    refine decoder.decode_append _ _ getLast?_concat ?_
    rw [joinLines, concat_eq_append, flatMap_append, flatMap_singleton, ← append_assoc]
    exact getLast?_concat

theorem pushText_joinLines (h : ∀ line ∈ lines, 0x0a ∉ line)
    (state : SseEventState) : pushText state (decoder.decode (joinLines lines)) =
      some (pushSseLines state (lines.map decoder.decode)) := by
  have hfeed := @feed_joinLines (lines.map decoder.decode)
    (forall_mem_map.mpr fun line hline => decoder.decode_line line (h line hline)) []
  rw [append_nil] at hfeed
  rw [decoder.decode_joinLines h, pushText, hfeed, feed, if_pos rfl, append_nil]

theorem text_eq : decoder.text bytes =
    joinLines ((feed [] bytes).1.map decoder.decode) ++ decoder.decode (feed [] bytes).2 := by
  obtain ⟨hlines, hrest, hbytes⟩ := feed_spec not_mem_nil bytes
  rw [nil_append] at hbytes
  have hend : ConcatSink.completeEnd bytes = (joinLines (feed [] bytes).1).length := by
    conv_lhs => rw [hbytes]
    rcases eq_nil_or_concat (feed [] bytes).1 with hnil | ⟨before, last, hconcat⟩
    · rw [hnil]
      exact ConcatSink.completeEnd_of_notMem hrest
    have hjoin : joinLines (feed [] bytes).1 = joinLines before ++ last ++ [0x0a] := by
      rw [hconcat, concat_eq_append, joinLines, flatMap_append, flatMap_singleton, ← append_assoc]
      rfl
    rw [hjoin, append_assoc, singleton_append, ConcatSink.completeEnd_append hrest,
      @length_append _ _ [0x0a]]
    rfl
  have htake : bytes.take (joinLines (feed [] bytes).1).length = joinLines (feed [] bytes).1 := by
    conv_lhs => arg 2; rw [hbytes]
    exact take_left
  have hdrop : bytes.drop (joinLines (feed [] bytes).1).length = (feed [] bytes).2 := by
    conv_lhs => arg 2; rw [hbytes]
    exact drop_left
  rw [text, hend, htake, hdrop, decoder.decode_joinLines hlines]

/-- The line that does not end. -/
def pushRest (state : SseEventState) (rest : List ℕ) : Option ServerSentEvent × SseEventState :=
  if rest = [] then (none, state) else pushSseLine (decoder.decode rest) state

theorem pushRest_events (rest : List ℕ) : (decoder.pushRest state rest).1.toList ++
        (flushSseEvent (decoder.pushRest state rest).2).1.toList =
      (pushSseLine (decoder.decode rest) state).1.toList ++
        (flushSseEvent (pushSseLine (decoder.decode rest) state).2).1.toList := by
  rw [pushRest]
  split
  · next h =>
    rw [h, decoder.decode_nil, flushSseEvent_twice]
    rfl
  · rfl

/-- The events of the rest of a stream, from the lines that end and the one that does not. -/
def eventsOf (state : SseEventState) (lines : List (List ℕ) × List ℕ) : List ServerSentEvent :=
  let last := pushSseLines state (lines.1.map decoder.decode)
  last.1 ++ ((decoder.pushRest last.2 lines.2).1.toList ++
    (flushSseEvent (decoder.pushRest last.2 lines.2).2).1.toList)

theorem eventsOf_append (lines : List (List ℕ))
    (later : List (List ℕ) × List ℕ) : decoder.eventsOf state (lines ++ later.1, later.2) =
      (pushSseLines state (lines.map decoder.decode)).1 ++
        decoder.eventsOf (pushSseLines state (lines.map decoder.decode)).2 later := by
  rw [eventsOf, map_append, pushSseLines_append]
  exact append_assoc ..

theorem readSseEventsFrom_eq (lineBuffer : ConcatSink) (h : 0x0a ∉ lineBuffer.content)
    (state : SseEventState) (chunks : List (List ℕ)) :
    decoder.readSseEventsFrom alloc lineBuffer state chunks =
      some (decoder.eventsOf state (feed lineBuffer.content chunks.flatten)) := by
  induction chunks generalizing lineBuffer state with
  | nil =>
    simp only [readSseEventsFrom, lineBuffer.isEmpty_iff]
    rfl
  | cons chunk chunks ih =>
    obtain ⟨hbatch, hnext⟩ := lineBuffer.appendAndFlushText_eq alloc h chunk
    obtain ⟨hlines, hrest, -⟩ := feed_spec h chunk
    rw [← hnext] at hrest
    rw [flatten_cons, feed_append, eventsOf_append, ← hnext, readSseEventsFrom]
    split at hbatch
    · next hnil =>
      rw [Prod.eta (lineBuffer.appendAndFlushText alloc chunk) |>.symm, hbatch, hnil]
      exact ih _ hrest _
    rw [Prod.eta (lineBuffer.appendAndFlushText alloc chunk) |>.symm, hbatch]
    simp only [decoder.pushText_joinLines hlines, ih _ hrest]
    rfl

/-- The events do not depend on how the bytes come in chunks: they are those of the decoded text,
split at line feeds. -/
theorem readSseEvents_events (chunks : List (List ℕ)) :
    decoder.readSseEvents alloc chunks = some (sseEvents (decoder.text chunks.flatten)) := by
  obtain ⟨hlines, hrest, -⟩ := feed_spec not_mem_nil chunks.flatten
  have hlines : ∀ line ∈ (feed [] chunks.flatten).1.map decoder.decode, 0x0a ∉ line :=
    forall_mem_map.mpr fun line hline => decoder.decode_line line (hlines line hline)
  have hsplit := splitOn_eq_feed not_mem_nil (decoder.text chunks.flatten)
  rw [nil_append, text_eq, feed_joinLines hlines, feed_of_notMem (decoder.decode_line _ hrest),
    append_nil, nil_append, ← text_eq] at hsplit
  refine (decoder.readSseEventsFrom_eq alloc {} not_mem_nil {} chunks).trans (congrArg some ?_)
  have hlast (state : SseEventState) (line : Units) :
      pushSseLines state [line] = ((pushSseLine line state).1.toList, (pushSseLine line state).2) :=
    Prod.ext (append_nil _) rfl
  rw [sseEvents, hsplit, pushSseLines_append, hlast, eventsOf, pushRest_events, ← append_assoc]
  rfl

end BatchDecoder

/-- The pieces do not depend on it either; a byte other than a line feed is in exactly one of them. -/
theorem readLines_pieces (alloc : Allocator) (chunks : List (List ℕ)) :
    readLines alloc chunks = linePieces chunks.flatten ∧
      (readLines alloc chunks).flatten = chunks.flatten.filter (· != 0x0a) := by
  have hlines : readLines alloc chunks = linePieces chunks.flatten := by
    rw [linePieces_eq]
    exact readLinesFrom_eq alloc {} chunks
  refine ⟨hlines, ?_⟩
  obtain ⟨hline, hrest, hjoin⟩ := feed_spec not_mem_nil chunks.flatten
  rw [nil_append] at hjoin
  have hfilter (lines : List (List ℕ)) (h : ∀ line ∈ lines, 0x0a ∉ line) :
      (joinLines lines).filter (· != 0x0a) = lines.flatten := by
    induction lines with
    | nil => rfl
    | cons line lines ih =>
      rw [forall_mem_cons] at h
      rw [joinLines_cons, filter_append, filter_append, ih h.2, flatten_cons,
        filter_eq_self.mpr (bne_of_notMem h.1)]
      exact congrArg (· ++ _) (append_nil _)
  have hfiltered : chunks.flatten.filter (· != 0x0a) =
      (feed [] chunks.flatten).1.flatten ++ (feed [] chunks.flatten).2 := by
    conv_lhs => rw [hjoin]
    rw [filter_append, hfilter _ hline, filter_eq_self.mpr (bne_of_notMem hrest)]
  rw [hlines, linePieces_eq, flatten_append, hfiltered]
  split
  · next hnil => rw [hnil, flatten_nil]
  · rw [flatten_singleton]

end BreadboardTui.Stream
