import BreadboardTui.Lib.Blocks
import BreadboardTui.Stream.SseStream

/-!
# Numbered lines in chunks

`streamHashLines` numbers the lines of a text whose bytes arrive in pieces, and yields them in
chunks of a bounded size.
-/

namespace BreadboardTui.HashStream

open List Hashline BreadboardTui.Stream

structure StreamOptions where
  startLine : ℕ := 1
  maxChunkLines : ℕ := 200
  maxChunkBytes : ℕ := 64 * 1024

/-- `Buffer.byteLength`, and what the calls of a streaming `TextDecoder` give: a text for each
piece, and at the end at most a character that was cut. -/
structure StreamRuntime where
  byteLength : Units → ℕ
  byteLength_line (line rest : Units) :
    byteLength (line ++ 10 :: rest) = byteLength line + 1 + byteLength rest
  text : List UInt8 → Units
  decode : List (List UInt8) → List Units × Units
  decode_end (pieces : List (List UInt8)) : 10 ∉ (decode pieces).2
  decode_flatten (pieces : List (List UInt8)) :
    (decode pieces).1.flatten ++ (decode pieces).2 = text pieces.flatten

def formatNumberedLine (lineNumber : ℕ) (line : Units) : Units :=
  units (toString lineNumber) ++ 58 :: line

def joinRows (rows : List Units) : Units := [10].intercalate rows

structure ChunkEmitter where
  lineNumber : ℕ
  outLines : List Units := []
  outBytes : ℕ := 0

variable (R : StreamRuntime) (options : StreamOptions)

namespace ChunkEmitter

variable (emitter : ChunkEmitter)

/-- The chunk, where there is one. -/
def flush : List Units × ChunkEmitter :=
  if emitter.outLines = [] then ([], emitter)
  else ([joinRows emitter.outLines], ⟨emitter.lineNumber, [], 0⟩)

def sepBytes : ℕ := if emitter.outLines = [] then 0 else 1

/-- `outLines.push(formatted)`, with its bytes. -/
def append (formatted : Units) : ChunkEmitter where
  lineNumber := emitter.lineNumber + 1
  outLines := emitter.outLines ++ [formatted]
  outBytes := emitter.outBytes + (emitter.sepBytes + R.byteLength formatted)

/-- The flush in front of a line that would exceed a limit. -/
def flushBefore (formatted : Units) : List Units × ChunkEmitter :=
  if emitter.outLines ≠ [] ∧ (options.maxChunkLines ≤ emitter.outLines.length ∨
      options.maxChunkBytes < emitter.outBytes + emitter.sepBytes + R.byteLength formatted) then
    emitter.flush
  else ([], emitter)

/-- The flush behind a line that reaches a limit. -/
def flushAfter : List Units × ChunkEmitter :=
  if options.maxChunkLines ≤ emitter.outLines.length ∨ options.maxChunkBytes ≤ emitter.outBytes then
    emitter.flush
  else ([], emitter)

def pushLine (line : Units) : List Units × ChunkEmitter :=
  let formatted := formatNumberedLine emitter.lineNumber line
  let before := emitter.flushBefore R options formatted
  let after := (before.2.append R formatted).flushAfter options
  (before.1 ++ after.1, after.2)

def pushLines (emitter : ChunkEmitter) : List Units → List Units × ChunkEmitter
  | [] => ([], emitter)
  | line :: lines =>
    let pushed := emitter.pushLine R options line
    let rest := pushed.2.pushLines lines
    (pushed.1 ++ rest.1, rest.2)

end ChunkEmitter

/-- What is pushed behind the loop. -/
def lastLines (pending : Units) (sawAnyLine : Bool) : List Units :=
  if pending ≠ [] then [stripCarriageReturn pending] else if sawAnyLine then [] else [[]]

/-- The loop over the pieces, and what follows it. -/
def streamFrom (last : Units) (emitter : ChunkEmitter) (pending : Units) (sawAnyLine : Bool) :
    List Units → List Units
  | [] =>
    let pushed := emitter.pushLines R options (lastLines (pending ++ last) sawAnyLine)
    pushed.1 ++ pushed.2.flush.1
  | text :: texts =>
    let read := feed pending text
    let pushed := emitter.pushLines R options (read.1.map stripCarriageReturn)
    pushed.1 ++ streamFrom last pushed.2 read.2 (sawAnyLine || !read.1.isEmpty) texts

def streamHashLines (pieces : List (List UInt8)) : List Units :=
  streamFrom R options (R.decode pieces).2 { lineNumber := options.startLine } [] false
    (R.decode pieces).1

/-! ### Every division -/

/-- The lines of a text. What is behind the last line feed is a line if it is not empty. -/
def linesOf (text : Units) : List Units :=
  let parts := text.splitOn 10
  (if parts.getLast? = some [] ∧ text ≠ [] then parts.dropLast else parts).map stripCarriageReturn

def numbered (lines : List Units) : List Units :=
  lines.mapIdx fun i line => formatNumberedLine (options.startLine + i) line

def Bounded (group : List Units) : Prop :=
  group ≠ [] ∧ (group.length = 1 ∨ group.length ≤ options.maxChunkLines ∧
    R.byteLength (joinRows group) ≤ options.maxChunkBytes)

/-- What has been pushed is in the chunks, and in the emitter. -/
structure Emits (lines out : List Units) (emitter : ChunkEmitter) : Prop where
  line : emitter.lineNumber = options.startLine + lines.length
  held : emitter.outLines ≠ [] → Bounded R options emitter.outLines
  bytes : emitter.outBytes =
    if emitter.outLines = [] then 0 else R.byteLength (joinRows emitter.outLines)
  chunks : ∃ groups : List (List Units), out = groups.map joinRows ∧
    groups.flatten ++ emitter.outLines = numbered options lines ∧
      ∀ group ∈ groups, Bounded R options group

variable {R options} {lines out : List Units} {emitter : ChunkEmitter} {line formatted last : Units}

theorem Emits.flush (h : Emits R options lines out emitter) :
    Emits R options lines (out ++ emitter.flush.1) emitter.flush.2 ∧
      emitter.flush.2.outLines = [] ∧ emitter.flush.2.lineNumber = emitter.lineNumber := by
  rw [ChunkEmitter.flush]
  split
  · next hnil => exact ⟨(append_nil out).symm ▸ h, hnil, rfl⟩
  next hne =>
  obtain ⟨groups, rfl, hflat, hall⟩ := h.chunks
  refine ⟨⟨h.line, fun h => absurd rfl h, rfl, groups ++ [emitter.outLines], ?_, ?_, ?_⟩, rfl, rfl⟩
  · rw [map_append, map_singleton]
  · rw [flatten_concat, append_nil, hflat]
  · exact forall_mem_append.mpr ⟨hall, forall_mem_singleton.mpr (h.held hne)⟩

theorem Emits.append (h : Emits R options lines out emitter)
    (hformatted : formatNumberedLine emitter.lineNumber line = formatted)
    (hroom : emitter.outLines = [] ∨ emitter.outLines.length < options.maxChunkLines ∧
      emitter.outBytes + 1 + R.byteLength formatted ≤ options.maxChunkBytes) :
    Emits R options (lines ++ [line]) out (emitter.append R formatted) := by
  obtain ⟨groups, hout, hflat, hall⟩ := h.chunks
  have hbytes : (emitter.append R formatted).outBytes =
      R.byteLength (joinRows (emitter.outLines ++ [formatted])) := by
    rw [ChunkEmitter.append, h.bytes]
    dsimp only [joinRows, ChunkEmitter.sepBytes]
    split
    · next hnil => rw [hnil, nil_append, intercalate_singleton, Nat.zero_add, Nat.zero_add]
    next hne =>
    rw [intercalate_append hne (cons_ne_nil _ _), R.byteLength_line, intercalate_singleton,
      Nat.add_assoc]
  refine ⟨?_, fun _ => ⟨concat_ne_nil _ _, ?_⟩, ?_, groups, hout, ?_, hall⟩
  · rw [ChunkEmitter.append, h.line, length_append, length_singleton, Nat.add_assoc]
  · rcases hroom with hnil | ⟨hlines, hroom⟩
    · exact .inl (by rw [ChunkEmitter.append, hnil]; rfl)
    rw [ChunkEmitter.append] at hbytes ⊢
    rw [← hbytes, length_append]
    refine .inr ⟨hlines, ?_⟩
    dsimp only [ChunkEmitter.sepBytes]
    split <;> omega
  · exact hbytes.trans (if_neg (concat_ne_nil _ _)).symm
  · rw [ChunkEmitter.append, ← append_assoc, hflat, ← hformatted, h.line, numbered, numbered,
      mapIdx_append, mapIdx_singleton, Nat.zero_add]

theorem Emits.pushLine (h : Emits R options lines out emitter) (line : Units) :
    Emits R options (lines ++ [line]) (out ++ (emitter.pushLine R options line).1)
      (emitter.pushLine R options line).2 := by
  rw [ChunkEmitter.pushLine]
  dsimp only
  generalize hformatted : formatNumberedLine emitter.lineNumber line = formatted
  have hpushed : Emits R options (lines ++ [line])
      (out ++ (emitter.flushBefore R options formatted).1)
      ((emitter.flushBefore R options formatted).2.append R formatted) := by
    rw [ChunkEmitter.flushBefore]
    split
    · obtain ⟨hemits, hnil, hline⟩ := h.flush
      exact hemits.append (hline ▸ hformatted) (.inl hnil)
    next hroom =>
    rw [append_nil]
    refine h.append hformatted ?_
    by_cases hnil : emitter.outLines = []
    · exact .inl hnil
    · rw [ChunkEmitter.sepBytes, if_neg hnil, not_and_or, not_or, not_le, not_lt] at hroom
      exact .inr (hroom.resolve_left fun hn => hn hnil)
  rw [← append_assoc, ChunkEmitter.flushAfter]
  split
  · exact hpushed.flush.1
  · rw [append_nil]
    exact hpushed

theorem Emits.pushLines (h : Emits R options lines out emitter) (more : List Units) :
    Emits R options (lines ++ more) (out ++ (emitter.pushLines R options more).1)
      (emitter.pushLines R options more).2 := by
  induction more generalizing lines out emitter with
  | nil => simpa [ChunkEmitter.pushLines] using h
  | cons line more ih =>
    have hmore := ih (h.pushLine line)
    rwa [append_assoc, append_assoc] at hmore

theorem linesOf_append (hlast : 10 ∉ last) (text : Units) :
    linesOf (text ++ last) = (feed [] text).1.map stripCarriageReturn ++
      lastLines ((feed [] text).2 ++ last) !(feed [] text).1.isEmpty := by
  have hfeed := feed_append [] text last
  have hsplit := @splitOn_eq_feed [] not_mem_nil (text ++ last)
  obtain ⟨-, -, hjoin⟩ := @feed_spec [] not_mem_nil (text ++ last)
  rw [feed_of_notMem hlast, append_nil] at hfeed
  rw [nil_append, hfeed] at hsplit hjoin
  dsimp only at hsplit hjoin
  generalize (feed [] text).1 = ended at *
  generalize (feed [] text).2 ++ last = rest at *
  rw [linesOf, hsplit, lastLines, getLast?_concat, dropLast_concat, hjoin]
  cases rest with
  | cons c rest => simp
  | nil => cases ended <;> simp [joinLines, stripCarriageReturn]

/-- The lines that are ended are pushed, the rest of the text is pending. -/
theorem Emits.streamFrom {text : Units} {sawAnyLine : Bool} (hlast : 10 ∉ last)
    (h : Emits R options ((feed [] text).1.map stripCarriageReturn) out emitter)
    (hsaw : sawAnyLine = !(feed [] text).1.isEmpty) (texts : List Units) :
    ∃ groups : List (List Units),
      out ++ HashStream.streamFrom R options last emitter (feed [] text).2 sawAnyLine texts =
        groups.map joinRows ∧
      groups.flatten = numbered options (linesOf (text ++ (texts.flatten ++ last))) ∧
        ∀ group ∈ groups, Bounded R options group := by
  induction texts generalizing text out emitter sawAnyLine with
  | nil =>
    rw [HashStream.streamFrom]
    obtain ⟨hemits, hnil, -⟩ :=
      (h.pushLines (lastLines ((feed [] text).2 ++ last) sawAnyLine)).flush
    obtain ⟨groups, hout, hflat, hall⟩ := hemits.chunks
    refine ⟨groups, by rw [← hout, append_assoc], ?_, hall⟩
    rw [hnil, append_nil] at hflat
    rw [hflat, hsaw, flatten_nil, nil_append, linesOf_append hlast]
  | cons piece texts ih =>
    rw [HashStream.streamFrom]
    have hfeed := feed_append [] text piece
    have hended : (feed [] (text ++ piece)).1 =
        (feed [] text).1 ++ (feed (feed [] text).2 piece).1 := by rw [hfeed]
    have hpushed := h.pushLines ((feed (feed [] text).2 piece).1.map stripCarriageReturn)
    rw [← map_append, ← hended] at hpushed
    obtain ⟨groups, hout, hflat, hall⟩ := ih hpushed rfl
    rw [hfeed] at hout
    refine ⟨groups, ?_, by rw [hflat, flatten_cons, append_assoc, append_assoc], hall⟩
    rw [← hout, hsaw, append_assoc]
    cases (feed [] text).1 <;> rfl

/-- For every division into pieces, the chunks are groups of the numbered lines of the text, within
both limits where they are of more than one line. -/
theorem streamHashLines_groups (R : StreamRuntime) (options : StreamOptions)
    (pieces : List (List UInt8)) :
    ∃ groups : List (List Units), streamHashLines R options pieces = groups.map joinRows ∧
      groups.flatten = numbered options (linesOf (R.text pieces.flatten)) ∧
      joinRows (streamHashLines R options pieces) =
        joinRows (numbered options (linesOf (R.text pieces.flatten))) ∧
      ∀ group ∈ groups, Bounded R options group := by
  have hstart : Emits R options [] [] { lineNumber := options.startLine } :=
    ⟨rfl, fun h => absurd rfl h, rfl, [], rfl, rfl, nofun⟩
  obtain ⟨groups, hout, hflat, hall⟩ :=
    (show Emits R options ((feed [] []).1.map stripCarriageReturn) [] _ from hstart).streamFrom
      (R.decode_end pieces) rfl (R.decode pieces).1
  rw [nil_append, R.decode_flatten] at hflat
  refine ⟨groups, hout, hflat, ?_, hall⟩
  rw [show streamHashLines R options pieces = groups.map joinRows from hout, ← hflat]
  exact (intercalate_flatMap groups id fun group hgroup => (hall group hgroup).1).trans
    (congrArg joinRows flatMap_id)

/-- On ASCII, every byte is a code unit. -/
def asciiRuntime : StreamRuntime where
  byteLength := length
  byteLength_line line rest := by simp only [length_append, length_cons]; omega
  text := map UInt8.toNat
  decode pieces := (pieces.map (map UInt8.toNat), [])
  decode_end _ := not_mem_nil
  decode_flatten pieces := by rw [append_nil, map_flatten]

theorem streamHashLines_groups_ascii :
    joinRows (streamHashLines asciiRuntime {} [[97, 13], [10, 98]]) = units "1:a\n2:b" := by
  obtain ⟨_, -, -, hjoin, -⟩ := streamHashLines_groups asciiRuntime {} [[97, 13], [10, 98]]
  exact hjoin.trans (by decide +kernel)

end BreadboardTui.HashStream
