import Mathlib.Data.List.DropRight
import Mathlib.Tactic

/-!
# The lines of a patch

The tokenizer reads the text of a patch line by line and says of each line what it is: a header of
a section, an op, a body row, an envelope marker, a blank line, or something else. Whole texts are
read at once; a text that is still being written comes in chunks, which may end anywhere.

A text is a list of UTF-16 code units, so that a chunk may end inside of a character as well.
-/

namespace BreadboardTui.Hashline

open List

/-- A text, as the list of its code units. -/
abbrev Units := List ℕ

/-- The code units of a constant of the source, all of which are ASCII. -/
def units (s : String) : Units := s.toList.map Char.toNat

/-! ### Characters -/

def isDigitCode (code : ℕ) : Bool := decide (48 ≤ code ∧ code ≤ 57)

def isNonZeroDigitCode (code : ℕ) : Bool := decide (48 < code ∧ code ≤ 57)

def isHexDigitCode (code : ℕ) : Bool :=
  isDigitCode code || decide (65 ≤ code ∧ code ≤ 70) || decide (97 ≤ code ∧ code ≤ 102)

/-- A space, or one of the controls from tab to carriage return. -/
def isWhitespaceCode (code : ℕ) : Bool := decide (code = 32 ∨ (9 ≤ code ∧ code ≤ 13))

/-- `-`, `.`, `=` or an ellipsis. -/
def isSeparatorCode (code : ℕ) : Bool := code = 45 || code = 46 || code = 61 || code = 0x2026

def isRegisterNameCode (code : ℕ) : Bool :=
  isDigitCode code || decide (65 ≤ code ∧ code ≤ 90) || decide (97 ≤ code ∧ code ≤ 122) ||
    code = 95 || code = 45

/-- What `String.prototype.trim` takes off. -/
def isTrimmedCode (code : ℕ) : Bool :=
  isWhitespaceCode code ||
    [0xa0, 0x1680, 0x2028, 0x2029, 0x202f, 0x205f, 0x3000, 0xfeff].contains code ||
    decide (0x2000 ≤ code ∧ code ≤ 0x200a)

/-- `toUpperCase`, on hexadecimal digits. -/
def upperHex (code : ℕ) : ℕ := if 97 ≤ code ∧ code ≤ 102 then code - 32 else code

def skipWhitespace (line : Units) : Units := line.dropWhile isWhitespaceCode

/-- The line up to its `trimEndIndex`. -/
def trimEnd (line : Units) : Units := line.rdropWhile isWhitespaceCode

def trim (text : Units) : Units := (text.dropWhile isTrimmedCode).rdropWhile isTrimmedCode

def markerLineEquals (line marker : Units) : Bool :=
  (trimEnd line).length = marker.length && marker.isPrefixOf line

/-! ### Lines of a text -/

/-- The line without the carriage return at its end: `end > start && code === CR`. -/
def stripCarriageReturn (line : Units) : Units :=
  if line.getLast? = some 13 then line.dropLast else line

/-- The loop of `splitHashlineLines`; `line` is the slice from `start` to `index`. -/
def splitLoop (line : Units) : Units → List Units
  | [] => if line = [] then [] else [stripCarriageReturn line]
  | code :: text =>
    if code = 10 then stripCarriageReturn line :: splitLoop [] text
    else splitLoop (line ++ [code]) text

def splitHashlineLines (text : Units) : List Units :=
  if text = [] then [[]] else splitLoop [] text

/-! ### The parts of a header

A scan of the source goes from an index to the trimmed end of the line. Here it takes what is
left of the trimmed line, and gives back what is left behind the part it has read. -/

def maxSafeInteger : ℕ := 2 ^ 53 - 1

/-- The loop of `scanLineNumber`, where `value` has been read. -/
def scanDigits (value : ℕ) : Units → Option (ℕ × Units)
  | [] => some (value, [])
  | code :: rest =>
    if isDigitCode code then
      if maxSafeInteger < value * 10 + (code - 48) then none
      else scanDigits (value * 10 + (code - 48)) rest
    else some (value, code :: rest)

def scanLineNumber : Units → Option (ℕ × Units)
  | [] => none
  | code :: rest => if isNonZeroDigitCode code then scanDigits 0 (code :: rest) else none

/-- A code unit between the ends of a range. -/
def inSeparator (code : ℕ) : Bool := isWhitespaceCode code || isSeparatorCode code

def scanRangeSeparator (line : Units) : Option Units :=
  match line.dropWhile inSeparator with
  | [] => none
  | code :: rest =>
    if inSeparator (line.headD 0) ∧ isNonZeroDigitCode code then some (code :: rest) else none

/-- A range whose second end is missing, as in `244.=:`. -/
def scanDanglingSeparator (line : Units) : Option Units :=
  if (line.takeWhile inSeparator).any isSeparatorCode then
    match line.dropWhile inSeparator with
    | [] => some []
    | code :: rest => if code = 58 ∨ code = 64 then some (code :: rest) else none
  else none

structure RangeScan where
  start : ℕ
  stop : ℕ
  rest : Units
  hadSeparator : Bool
  deriving DecidableEq, Repr

/-- `scanHeaderRange`, which is always called with `allowSingle`. -/
def scanHeaderRange (line : Units) : Option RangeScan := do
  let (start, afterStart) ← scanLineNumber (skipWhitespace line)
  match scanRangeSeparator afterStart with
  | some afterFirst =>
    let (stop, afterStop) ← scanLineNumber afterFirst
    some ⟨start, stop, skipWhitespace afterStop, true⟩
  | none =>
    match scanDanglingSeparator afterStart with
    | some dangling => some ⟨start, start, dangling, true⟩
    | none => some ⟨start, start, skipWhitespace afterStart, false⟩

/-- What an op addresses. -/
inductive BlockTarget where
  | replace (start stop : ℕ) (register : Option Units)
  | block (line : ℕ) (register : Option Units)
  | insertBefore (line : ℕ) (register : Option Units)
  | insertAfter (line : ℕ) (register : Option Units)
  | insertAfterBlock (line : ℕ) (register : Option Units)
  | cut (start stop : ℕ) (register : Option Units)
  | cutBlock (line : ℕ) (register : Option Units)
  | bof (register : Option Units)
  | eof (register : Option Units)
  | rem
  | move (dest : Units)
  deriving DecidableEq, Repr

structure TargetScan where
  target : BlockTarget
  rest : Units
  hadColon : Bool
  deriving DecidableEq, Repr

/-- The keyword, followed by a blank, a colon or nothing. -/
def scanKeyword (keyword line : Units) : Option Units :=
  if keyword.isPrefixOf line then
    match line.drop keyword.length with
    | [] => some []
    | code :: rest => if isWhitespaceCode code || code = 58 then some (code :: rest) else none
  else none

/-- What follows an optional colon, and whether it was there. -/
def consumeOptionalColon (line : Units) : Units × Bool :=
  match skipWhitespace line with
  | [] => ([], false)
  | code :: rest => if code = 58 then (skipWhitespace rest, true) else (code :: rest, false)

def registerNameMax : ℕ := 64

/-- `@name`, as its name and what follows. -/
def scanRegister : Units → Option (Units × Units)
  | [] => none
  | code :: rest =>
    let name := rest.takeWhile isRegisterNameCode
    if code = 64 ∧ name ≠ [] ∧ name.length ≤ registerNameMax then
      some (name, rest.dropWhile isRegisterNameCode)
    else none

/-- The end of an op: a register or not, a colon or not. -/
def finishTargetScan (line : Units) (target : Option Units → BlockTarget) : TargetScan :=
  match scanRegister (skipWhitespace line) with
  | some (name, rest) =>
    ⟨target (some name), (consumeOptionalColon rest).1, (consumeOptionalColon rest).2⟩
  | none =>
    ⟨target none, (consumeOptionalColon (skipWhitespace line)).1,
      (consumeOptionalColon (skipWhitespace line)).2⟩

/-- The star of a block locator. -/
def scanStar : Units → Option Units
  | [] => none
  | code :: rest => if code = 42 then some rest else none

/-- `$` behind `>`. -/
def scanDollar (line : Units) : Option Units :=
  match skipWhitespace line with
  | [] => none
  | code :: rest => if code = 36 then some rest else none

/-- What follows `<` or `>` in the header of a put. -/
def scanGap (isAfter : Bool) (line : Units) : Option TargetScan :=
  match if isAfter then scanDollar line else none with
  | some rest => some (finishTargetScan rest .eof)
  | none => do
    let (anchor, next) ← scanLineNumber (skipWhitespace line)
    match scanStar next with
    | some rest =>
      if isAfter then some (finishTargetScan rest (.insertAfterBlock anchor))
      else some (finishTargetScan rest (if anchor = 1 then .bof else .insertBefore anchor))
    | none =>
      if isAfter then some (finishTargetScan next (.insertAfter anchor))
      else some (finishTargetScan next (if anchor = 1 then .bof else .insertBefore anchor))

/-- A span, or the first line of a block. -/
def scanSpan (span : ℕ → ℕ → Option Units → BlockTarget) (block : ℕ → Option Units → BlockTarget)
    (line : Units) : Option TargetScan := do
  let range ← scanHeaderRange line
  match scanStar range.rest with
  | some rest =>
    if range.hadSeparator then none else some (finishTargetScan rest (block range.start))
  | none => some (finishTargetScan range.rest (span range.start range.stop))

def scanPutTarget (line : Units) : Option TargetScan :=
  match skipWhitespace line with
  | [] => none
  | code :: rest =>
    if code = 60 then scanGap false rest
    else if code = 62 then scanGap true rest
    else scanSpan .replace .block (code :: rest)

def scanCutTarget (line : Units) : Option TargetScan := scanSpan .cut .cutBlock line

/-- A quoted path without its quotes. -/
def unquotePath (path : Units) : Units :=
  match path with
  | [] | [_] => path
  | first :: rest =>
    if (first = 34 ∨ first = 39) ∧ rest.getLast? = some first then rest.dropLast else path

/-- The text up to the closing quote, and what follows it. -/
def scanQuoted (quote : ℕ) : Units → Option (Units × Units)
  | [] => none
  | [code] => if code = quote then some ([code], []) else none
  | code :: next :: rest =>
    if code = 92 then (scanQuoted quote rest).map fun r => (code :: next :: r.1, r.2)
    else if code = quote then some ([code], next :: rest)
    else (scanQuoted quote (next :: rest)).map fun r => (code :: r.1, r.2)

def scanMoveDest (line : Units) : Option Units :=
  match skipWhitespace line with
  | [] => none
  | first :: rest =>
    if first = 34 ∨ first = 39 then
      match scanQuoted first rest with
      | none => none
      | some (quoted, after) =>
        if skipWhitespace after = [] then some (unquotePath (first :: quoted)) else none
    else some (unquotePath (trim (first :: rest)))

def putKeyword : Units := units "PUT"
def cutKeyword : Units := units "CUT"
def remKeyword : Units := units "REM"
def moveKeyword : Units := units "MV"

def scanHunkAnchor (line : Units) : Option TargetScan :=
  match scanKeyword remKeyword line with
  | some rest => if skipWhitespace rest = [] then some ⟨.rem, [], false⟩ else none
  | none =>
    match scanKeyword moveKeyword line with
    | some rest =>
      match scanMoveDest rest with
      | none | some [] => none
      | some dest => some ⟨.move dest, [], false⟩
    | none =>
      match scanKeyword putKeyword line with
      | some rest => scanPutTarget rest
      | none =>
        match scanKeyword cutKeyword line with
        | some rest => scanCutTarget rest
        | none => none

/-- The target of an op, and whether it has a colon. -/
def tryParseHunkHeader (line : Units) : Option (BlockTarget × Bool) :=
  match skipWhitespace (trimEnd line) with
  | [] => none
  | code :: rest =>
    match scanHunkAnchor (code :: rest) with
    | none => none
    | some scan => if scan.rest = [] then some (scan.target, scan.hadColon) else none

/-- The line starts, behind blanks, with the keyword of an op. -/
def isHunkLead (line : Units) : Bool :=
  putKeyword.isPrefixOf (skipWhitespace line) || cutKeyword.isPrefixOf (skipWhitespace line) ||
    remKeyword.isPrefixOf (skipWhitespace line) || moveKeyword.isPrefixOf (skipWhitespace line)

/-- The body row would be an op if it stood alone. -/
def isHunkHeaderText (text : Units) : Bool := isHunkLead text && (tryParseHunkHeader text).isSome

def fileHashLength : ℕ := 4

/-- The body of a bracketed header as its path and its tag: the tag is four hexadecimal digits
behind the last `#`. -/
def splitTag (body : Units) : Units × Option Units :=
  let front := body.take (body.length - fileHashLength)
  let tag := body.drop (body.length - fileHashLength)
  if fileHashLength < body.length ∧ front.getLast? = some 35 ∧ tag.all isHexDigitCode then
    (front.dropLast, some (tag.map upperHex))
  else (body, none)

/-- The path and the tag of a header line. -/
def tryParseHeader (line : Units) : Option (Units × Option Units) :=
  match trimEnd line with
  | [] => none
  | first :: rest =>
    if first = 91 ∧ rest.getLast? = some 93 ∧ rest.dropLast ≠ [] then
      if (splitTag rest.dropLast).1.contains 35 ∨ (splitTag rest.dropLast).1 = [] then none
      else some (splitTag rest.dropLast)
    else none

/-! ### Tokens -/

/-- What a line is. -/
inductive TokenKind where
  | blank
  | envelopeBegin
  | envelopeEnd
  | abort
  | header (path : Units) (fileHash : Option Units)
  | opBlock (target : BlockTarget) (hadColon : Bool)
  | payloadLiteral (text : Units)
  | raw (text : Units)
  deriving DecidableEq, Repr

structure Token where
  lineNum : ℕ
  kind : TokenKind
  deriving DecidableEq, Repr

def beginPatchMarker : Units := units "*** Begin Patch"
def endPatchMarker : Units := units "*** End Patch"
def abortMarker : Units := units "*** Abort"

/-- The last two cases of `classifyLine`. -/
def classifyRow (line : Units) : TokenKind :=
  match line with
  | [] => .raw []
  | first :: rest => if first = 43 then .payloadLiteral rest else .raw line

/-- The op of a line, or the row it is. -/
def classifyOp (line : Units) : TokenKind :=
  match if isHunkLead line then tryParseHunkHeader line else none with
  | some (target, hadColon) => .opBlock target hadColon
  | none => classifyRow line

def classifyLine (line : Units) : TokenKind :=
  if line = [] then .blank
  else if markerLineEquals line beginPatchMarker then .envelopeBegin
  else if markerLineEquals line endPatchMarker then .envelopeEnd
  else if markerLineEquals line abortMarker then .abort
  else
    match if line.head? = some 91 then tryParseHeader line else none with
    | some (path, fileHash) => .header path fileHash
    | none => classifyOp line

/-- The tokens of some lines, the first of which has the number `lineNum`. -/
def classifyLines (lineNum : ℕ) : List Units → List Token
  | [] => []
  | line :: lines => ⟨lineNum, classifyLine line⟩ :: classifyLines (lineNum + 1) lines

/-! ### The tokenizer -/

/-- What the tokenizer keeps between two chunks. -/
structure Tokenizer where
  buffer : Units := []
  nextLineNum : ℕ := 1
  closed : Bool := false
  deriving DecidableEq, Repr

namespace Tokenizer

/-- The loop of `#drainCompleteLines`; `line` is the slice of the buffer from `start` to
`index`. It gives the tokens, the next line number and the slice that is left. -/
def drainLoop (lineNum : ℕ) (line : Units) : Units → List Token × ℕ × Units
  | [] => ([], lineNum, line)
  | code :: buf =>
    if code = 10 then
      let drained := drainLoop (lineNum + 1) [] buf
      (⟨lineNum, classifyLine (stripCarriageReturn line)⟩ :: drained.1, drained.2)
    else drainLoop lineNum (line ++ [code]) buf

def drainCompleteLines (tokenizer : Tokenizer) : List Token × Tokenizer :=
  let drained := drainLoop tokenizer.nextLineNum [] tokenizer.buffer
  (drained.1, { tokenizer with nextLineNum := drained.2.1, buffer := drained.2.2 })

def feed (tokenizer : Tokenizer) (chunk : Units) : Except String (List Token × Tokenizer) :=
  if tokenizer.closed then .error "Tokenizer is closed; call reset() before reusing."
  else if chunk = [] then .ok ([], tokenizer)
  else .ok (drainCompleteLines { tokenizer with buffer := tokenizer.buffer ++ chunk })

/-- `end`. -/
def endTokens (tokenizer : Tokenizer) : List Token × Tokenizer :=
  if tokenizer.closed then ([], tokenizer)
  else if tokenizer.buffer = [] then ([], { tokenizer with closed := true })
  else
    ([⟨tokenizer.nextLineNum, classifyLine (stripCarriageReturn tokenizer.buffer)⟩],
      ⟨[], tokenizer.nextLineNum + 1, true⟩)

def reset (_ : Tokenizer) : Tokenizer := {}

def tokenizeAll (tokenizer : Tokenizer) (text : Units) : Except String (List Token × Tokenizer) :=
  do
    let (first, fed) ← tokenizer.reset.feed text
    let (last, ended) := fed.endTokens
    return (if last = [] then first else first ++ last, ended)

/-- A text in chunks: each is fed in turn, then the input ends. -/
def stream (tokenizer : Tokenizer) : List Units → Except String (List Token)
  | [] => .ok tokenizer.endTokens.1
  | chunk :: chunks => do
    let (tokens, fed) ← tokenizer.feed chunk
    let rest ← stream fed chunks
    return tokens ++ rest

end Tokenizer

/-! ### Chunks -/

open Tokenizer

/-- The tokens of a text, of which `line` has been read before, from line `lineNum` on. -/
def textTokens (lineNum : ℕ) (line text : Units) : List Token :=
  classifyLines lineNum (splitLoop line text)

variable (lineNum : ℕ) (line : Units)

theorem drainLoop_append (text text' : Units) : drainLoop lineNum line (text ++ text') =
      ((drainLoop lineNum line text).1 ++
          (drainLoop (drainLoop lineNum line text).2.1 (drainLoop lineNum line text).2.2 text').1,
        (drainLoop (drainLoop lineNum line text).2.1 (drainLoop lineNum line text).2.2 text').2) := by
  induction text generalizing lineNum line with
  | nil => rfl
  | cons code text ih =>
    rw [cons_append, drainLoop, drainLoop]
    split
    · rw [ih]
      rfl
    · rw [ih]

/-- The slice that is left has no line feed in it, and reading it again finds no line. -/
theorem drainLoop_left (lineNum lineNum' : ℕ) (line text : Units) (h : 10 ∉ line) :
    drainLoop lineNum' [] (drainLoop lineNum line text).2.2 =
      ([], lineNum', (drainLoop lineNum line text).2.2) := by
  have hplain : ∀ (start line : Units), 10 ∉ line →
      drainLoop lineNum' start line = ([], lineNum', start ++ line) := by
    intro start line hline
    induction line generalizing start with
    | nil => rw [drainLoop, append_nil]
    | cons code line ih =>
      rw [mem_cons, not_or] at hline
      rw [drainLoop, if_neg (Ne.symm hline.1), ih _ hline.2, append_assoc, singleton_append]
  induction text generalizing lineNum line with
  | nil =>
    rw [drainLoop]
    exact hplain [] line h
  | cons code text ih =>
    rw [drainLoop]
    split
    · exact ih (lineNum + 1) [] not_mem_nil
    next hcode =>
    refine ih lineNum (line ++ [code]) ?_
    simpa [h] using Ne.symm hcode

theorem textTokens_eq_drainLoop (text : Units) : textTokens lineNum line text =
      (drainLoop lineNum line text).1 ++
        (endTokens ⟨(drainLoop lineNum line text).2.2, (drainLoop lineNum line text).2.1,
          false⟩).1 := by
  induction text generalizing lineNum line with
  | nil =>
    -- what is left when the text ends is a line of its own, unless it is empty
    rw [textTokens, splitLoop, drainLoop, endTokens]
    by_cases hline : line = []
    · simp [hline, classifyLines]
    · simp [hline, classifyLines]
  | cons code text ih =>
    rw [textTokens, splitLoop, drainLoop]
    split
    · rw [classifyLines]
      have hrest := ih (lineNum + 1) []
      rw [textTokens] at hrest
      rw [hrest]
      rfl
    · exact ih lineNum (line ++ [code])

/-- The tokenizer with the buffer that is left after a text without its lines. -/
def afterText (lineNum : ℕ) (line text : Units) : Tokenizer :=
  ⟨(drainLoop lineNum line text).2.2, (drainLoop lineNum line text).2.1, false⟩

variable {buffer : Units}

/-- A buffer without a line feed is read as the beginning of the next line. -/
theorem drainLoop_buffer (h : 10 ∉ buffer) (lineNum : ℕ) (chunk : Units) :
    drainLoop lineNum [] (buffer ++ chunk) = drainLoop lineNum buffer chunk := by
  have hbuffer : drainLoop lineNum [] buffer = ([], lineNum, buffer) :=
    drainLoop_left lineNum lineNum buffer [] h
  rw [drainLoop_append, hbuffer, nil_append]

theorem not_mem_left (text : Units) (h : 10 ∉ line) : 10 ∉ (drainLoop lineNum line text).2.2 := by
  induction text generalizing lineNum line with
  | nil => exact h
  | cons code text ih =>
    rw [drainLoop]
    split
    · exact ih (lineNum + 1) [] not_mem_nil
    next hcode =>
    refine ih lineNum (line ++ [code]) ?_
    simpa [h] using Ne.symm hcode

/-- Feeding one chunk: the tokens of its lines, and the tokenizer for what is left. -/
theorem feed_eq (h : 10 ∉ buffer) (lineNum : ℕ) (chunk : Units) :
    feed ⟨buffer, lineNum, false⟩ chunk =
      .ok ((drainLoop lineNum buffer chunk).1, afterText lineNum buffer chunk) := by
  rw [feed, if_neg Bool.false_ne_true]
  split
  · next hchunk =>
    rw [hchunk]
    rfl
  rw [drainCompleteLines, drainLoop_buffer h]
  rfl

/-- Feeding chunks, from a buffer that holds the beginning of a line. -/
theorem stream_eq (h : 10 ∉ buffer) (lineNum : ℕ) (chunks : List Units) :
    stream ⟨buffer, lineNum, false⟩ chunks = .ok (textTokens lineNum buffer chunks.flatten) := by
  induction chunks generalizing buffer lineNum with
  | nil =>
    rw [stream, flatten_nil, textTokens_eq_drainLoop]
    rfl
  | cons chunk chunks ih =>
    -- the rest of the text begins with the line that the chunk has left open
    have hleft : 10 ∉ (drainLoop lineNum buffer chunk).2.2 := not_mem_left lineNum buffer chunk h
    have hrest := ih hleft (drainLoop lineNum buffer chunk).2.1
    rw [stream, feed_eq h]
    simp only [bind, Except.bind, afterText] at hrest ⊢
    rw [hrest, flatten_cons, textTokens_eq_drainLoop, textTokens_eq_drainLoop,
      drainLoop_append, append_assoc]
    rfl

theorem tokenizeAll_eq (tokenizer : Tokenizer) (text : Units) :
    (tokenizer.tokenizeAll text).map Prod.fst = .ok (textTokens 1 [] text) := by
  rw [tokenizeAll, reset, feed_eq not_mem_nil, textTokens_eq_drainLoop]
  simp only [bind, Except.bind, pure, Except.pure, Except.map]
  rw [ite_eq_right_iff.mpr]
  · rfl
  intro hlast
  rw [hlast, append_nil]

/-- Where the chunks of a text end does not matter: fed to a fresh or a reset tokenizer they give
the tokens that `tokenizeAll` gives for the whole text, which are those of its lines. -/
theorem tokens_of_chunks (used other : Tokenizer) (chunks : List Units) :
    stream {} chunks = (other.tokenizeAll chunks.flatten).map Prod.fst ∧
      stream used.reset chunks = (other.tokenizeAll chunks.flatten).map Prod.fst ∧
        (other.tokenizeAll chunks.flatten).map Prod.fst =
          .ok (if chunks.flatten = [] then []
            else classifyLines 1 (splitHashlineLines chunks.flatten)) := by
  have hstream : stream {} chunks = .ok (textTokens 1 [] chunks.flatten) :=
    stream_eq not_mem_nil 1 chunks
  rw [tokenizeAll_eq]
  refine ⟨hstream, hstream, ?_⟩
  congr 1
  split
  · next hempty =>
    rw [hempty]
    rfl
  · next hne => rw [splitHashlineLines, if_neg hne, textTokens]

end BreadboardTui.Hashline
