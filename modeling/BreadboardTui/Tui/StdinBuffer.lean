import BreadboardTui.Lib.FirstMatch

/-!
# The buffer of standard input

Input comes in chunks that are cut anywhere. The buffer emits what is complete, one key or escape
sequence at a time, and keeps the rest. What is between two paste markers is one paste. No timer
fires here, and the clock stands still.

A text is a list of UTF-16 code units.
-/

namespace BreadboardTui.Tui

abbrev Units : Type := List ℕ

def esc : ℕ := 0x1b

/-- `BRACKETED_PASTE_START`. -/
def pasteStart : Units := [esc, 0x5b, 0x32, 0x30, 0x30, 0x7e]

/-- `BRACKETED_PASTE_END`. -/
def pasteEnd : Units := [esc, 0x5b, 0x32, 0x30, 0x31, 0x7e]

def maxCsiBytes : ℕ := 4096

def maxStringSeqBytes : ℕ := 16 * 1024 * 1024

def stringDiscardMaxBytes : ℕ := 2 * maxStringSeqBytes

/-- `PASTE_MAX_BYTES`, the limit of a paste by default. -/
def pasteMaxBytes : ℕ := 64 * 1024 * 1024

/-! ### Escape sequences -/

def isDigit (code : ℕ) : Bool := 0x30 ≤ code && code ≤ 0x39

/-- What comes after one digit or more. -/
def skipDigits (text : Units) : Option Units :=
  if (text.takeWhile isDigit).isEmpty then none else some (text.dropWhile isDigit)

def sgrMouseComplete (payload : Units) : Bool :=
  match payload with
  | 0x3c :: text =>
    match skipDigits text with
    | some (0x3b :: text) =>
      match skipDigits text with
      | some (0x3b :: text) =>
        match skipDigits text with
        | some [code] => code = 0x4d || code = 0x6d
        | _ => false
      | _ => false
    | _ => false
  | _ => false

/-- Where a sequence ends: behind so many units, or not yet, or it is as long as it may be. -/
inductive Resolved where
  | complete (taken : ℕ)
  | incomplete
  | capped
  deriving DecidableEq, Repr

/-- The loop over a CSI sequence, which has seen a part of its body and looks at so many units
more: how long the body is. -/
def csiEnd (isSgrMouse : Bool) (seen : Units) : ℕ → Units → Option ℕ
  | 0, _ => none
  | _ + 1, [] => none
  | budget + 1, code :: rest =>
    if (0x40 ≤ code ∧ code ≤ 0x7e) ∧
        (isSgrMouse → (code = 0x4d ∨ code = 0x6d) ∧ sgrMouseComplete (seen ++ [code])) then
      some (seen.length + 1)
    else csiEnd isSgrMouse (seen ++ [code]) budget rest

/-- The loop over an OSC, DCS or APC string: how many units there are up to its terminator, which
may be a BEL. -/
def stringEnd (bell : Bool) : Units → Option ℕ
  | [] => none
  | code :: rest =>
    if bell ∧ code = 0x07 then some 1
    else if code = esc ∧ rest.head? = some 0x5c then some 2
    else (stringEnd bell rest).map (· + 1)

def resolveCsi (buffer : Units) : Resolved :=
  match buffer.drop 2 with
  | [] => .incomplete
  | third :: rest =>
    if third = 0x4d then if 6 ≤ buffer.length then .complete 6 else .incomplete
    else
      match csiEnd (third = 0x3c) [] (maxCsiBytes - 2) (third :: rest) with
      | some taken => .complete (2 + taken)
      | none => if maxCsiBytes ≤ buffer.length then .capped else .incomplete

def resolveString (bell : Bool) (buffer : Units) (resumeSearchFrom : ℕ) : Resolved :=
  let searchFrom := max 2 (resumeSearchFrom - 1)
  match stringEnd bell ((buffer.take maxStringSeqBytes).drop searchFrom) with
  | some taken => .complete (searchFrom + taken)
  | none => if maxStringSeqBytes ≤ buffer.length then .capped else .incomplete

/-- For a buffer that starts with ESC. -/
def resolveEscapeEnd (buffer : Units) (resumeSearchFrom : ℕ) : Resolved :=
  match buffer with
  | [] | [_] => .incomplete
  | _ :: next :: _ =>
    if next = esc then .incomplete
    else if next = 0x5b then resolveCsi buffer
    else if next = 0x5d then resolveString true buffer resumeSearchFrom
    else if next = 0x50 ∨ next = 0x5f then resolveString false buffer resumeSearchFrom
    else if next = 0x4f then if 3 ≤ buffer.length then .complete 3 else .incomplete
    else .complete 2

/-! ### Complete sequences -/

def isHighSurrogate (code : ℕ) : Bool := 0xD800 ≤ code && code ≤ 0xDBFF

def isLowSurrogate (code : ℕ) : Bool := 0xDC00 ≤ code && code ≤ 0xDFFF

/-- How many units the first character has. -/
def charLength : Units → ℕ
  | high :: low :: _ => if isHighSurrogate high && isLowSurrogate low then 2 else 1
  | _ => 1

/-- What the loop of `extractCompleteSequences` does at a position. -/
inductive Step where
  | emit (sequences : List Units) (taken : ℕ)
  | hold
  | discard
  deriving DecidableEq, Repr

/-- Whether an ESC is followed by the start of an OSC, DCS or APC string. -/
def isStringType (buffer : Units) : Bool :=
  buffer[1]? = some 0x5d || buffer[1]? = some 0x50 || buffer[1]? = some 0x5f

/-- An ESC that is not followed by another. -/
def singleEscape (buffer : Units) (hint : ℕ) : Step :=
  match resolveEscapeEnd buffer hint with
  | .incomplete => .hold
  | .capped =>
    if isStringType buffer then .discard else .emit [buffer.take maxCsiBytes] maxCsiBytes
  | .complete taken => .emit [buffer.take taken] taken

/-- An ESC, and another with what follows it. -/
def doubleEscape (inner : Units) : Step :=
  match inner[1]? with
  | none => .hold
  | some third =>
    if third ≠ 0x5b ∧ third ≠ 0x4f then .emit [[esc]] 1
    else
      match resolveEscapeEnd inner 0 with
      | .incomplete => .hold
      | .capped => .emit [(esc :: inner).take maxCsiBytes] maxCsiBytes
      | .complete taken =>
        if third = 0x5b ∧ inner[2]? = some 0x3c then .emit [[esc], inner.take taken] (taken + 1)
        else .emit [esc :: inner.take taken] (taken + 1)

def nextStep (buffer : Units) (hint : ℕ) : Step :=
  match buffer with
  | [] => .hold
  | code :: inner =>
    if code ≠ esc then .emit [buffer.take (charLength buffer)] (charLength buffer)
    else if inner.head? = some esc then doubleEscape inner
    else singleEscape buffer hint

variable {buffer : Units} {hint : ℕ}

theorem resolveEscapeEnd_pos {taken : ℕ}
    (h : resolveEscapeEnd buffer hint = .complete taken) : 0 < taken := by
  have hcsi : resolveCsi buffer = .complete taken → 0 < taken := by
    intro h
    rw [resolveCsi] at h
    split at h
    · cases h
    split at h
    · split at h
      · injection h with h
        omega
      · cases h
    split at h
    · injection h with h
      omega
    · split at h <;> cases h
  have hstring : ∀ bell, resolveString bell buffer hint = .complete taken → 0 < taken := by
    intro bell h
    rw [resolveString] at h
    split at h
    · injection h with h
      omega
    · split at h <;> cases h
  unfold resolveEscapeEnd at h
  split at h
  · cases h
  · cases h
  split at h
  · cases h
  split at h
  · exact hcsi h
  · split at h
    · exact hstring true h
    · split at h
      · exact hstring false h
      · split at h
        · split at h
          · injection h with h
            omega
          · cases h
        · injection h with h
          omega

theorem nextStep_pos {taken : ℕ} {sequences : List Units}
    (h : nextStep buffer hint = .emit sequences taken) : 0 < taken := by
  have hcap : 0 < maxCsiBytes := by decide
  unfold nextStep at h
  split at h
  · cases h
  split at h
  · injection h with _ h
    rw [← h]
    unfold charLength
    split
    · split
      · decide
      · decide
    · decide
  split at h
  · rw [doubleEscape] at h
    split at h
    · cases h
    split at h
    · injection h with _ h
      omega
    split at h
    · cases h
    · injection h with _ h
      omega
    · split at h
      · injection h with _ h
        omega
      · injection h with _ h
        omega
  · rw [singleEscape] at h
    split at h
    · cases h
    · split at h
      · cases h
      · injection h with _ h
        omega
    next hresolved =>
    injection h with _ h
    rw [← h]
    exact resolveEscapeEnd_pos hresolved

/-- What is complete, what is left of the buffer, and where the next search starts; or what comes
from the start of a string on that is as long as it may be. -/
structure Extracted where
  sequences : List Units
  remainder : Units := []
  resumeSearchFrom : ℕ := 0
  discardFrom : Option Units := none
  deriving DecidableEq, Repr

/-- The loop of `extractCompleteSequences`, at the start of the buffer or not. -/
def extractLoop (first : Bool) (buffer : Units) (hint : ℕ) : Extracted :=
  if buffer = [] then { sequences := [] }
  else
    match _hstep : nextStep buffer hint with
    | .hold =>
      { sequences := []
        remainder := buffer
        resumeSearchFrom :=
          if first && buffer.head? = some esc && isStringType buffer then buffer.length else 0 }
    | .discard => { sequences := [], discardFrom := some buffer }
    | .emit sequences taken =>
      let rest := extractLoop false (buffer.drop taken) 0
      { rest with sequences := sequences ++ rest.sequences }
termination_by buffer.length
decreasing_by
  have hpos := nextStep_pos _hstep
  have hlength : 0 < buffer.length := List.length_pos_iff.mpr ‹_›
  rw [List.length_drop]
  omega

def extractCompleteSequences (buffer : Units) (resumeSearchFrom : ℕ) : Extracted :=
  extractLoop true buffer resumeSearchFrom

/-! ### Output -/

/-- What becomes of a sequence or a paste. -/
inductive Item where
  | data (sequence : Units)
  /-- A printable that repeats the Kitty event in front of it. -/
  | dropped (sequence : Units)
  | paste (content : Units)
  deriving DecidableEq, Repr

inductive Event where
  | data (sequence : Units)
  | paste (content : Units)
  deriving DecidableEq, Repr

def Item.event? : Item → Option Event
  | .data sequence => some (.data sequence)
  | .dropped _ => none
  | .paste content => some (.paste content)

/-- The input that an item stands for. -/
def Item.input : Item → Units
  | .data sequence | .dropped sequence => sequence
  | .paste content => pasteStart ++ content ++ pasteEnd

/-- All that was emitted or dropped, and `#pendingKittyPrintableCodepoint`. -/
structure Output where
  log : List Item := []
  pendingKitty : Option ℕ := none
  deriving DecidableEq, Repr

/-- What is after a colon with digits: any number of them, or one at least. -/
def skipField (atLeastOne : Bool) (text : Units) : Option Units :=
  match text with
  | 0x3a :: text =>
    if atLeastOne then skipDigits text else some (text.dropWhile isDigit)
  | _ => none

/-- The rest of `/^\x1b\[(\d+)(?::\d*)?(?::\d+)?u$/` behind its first digits. -/
def kittyTail (text : Units) : Bool :=
  text = [0x75] || skipField false text = some [0x75] || skipField true text = some [0x75] ||
    ((skipField false text).bind (skipField true)) = some [0x75]

/-- The value of decimal digits. -/
def digitsValue (digits : Units) : ℕ :=
  digits.foldl (fun value code => value * 10 + (code - 0x30)) 0

def parseUnmodifiedKittyPrintableCodepoint (sequence : Units) : Option ℕ :=
  match sequence with
  | 0x1b :: 0x5b :: text =>
    if (text.takeWhile isDigit).isEmpty || !kittyTail (text.dropWhile isDigit) then none
    else
      let codepoint := digitsValue (text.takeWhile isDigit)
      if 32 ≤ codepoint then some codepoint else none
  | _ => none

namespace Output

/-- `#emitDataSequence`. -/
def emitData (o : Output) (sequence : Units) : Output :=
  if sequence.length = 1 ∧ sequence.head? = o.pendingKitty then
    ⟨o.log ++ [.dropped sequence], none⟩
  else ⟨o.log ++ [.data sequence], parseUnmodifiedKittyPrintableCodepoint sequence⟩

def emitAll (o : Output) (sequences : List Units) : Output := sequences.foldl emitData o

def emitPaste (o : Output) (content : Units) : Output := { o with log := o.log ++ [.paste content] }

def clearPending (o : Output) : Output := { o with pendingKitty := none }

def events (o : Output) : List Event := o.log.filterMap Item.event?

/-- The input that was consumed. -/
def input (o : Output) : Units := o.log.flatMap Item.input

end Output

/-! ### The buffer -/

structure StdinBuffer where
  output : Output := {}
  buffer : Units := []
  escapeSearchOffset : ℕ := 0
  pasteMode : Bool := false
  pasteChunks : List Units := []
  pasteOverlap : Units := []
  pasteBytes : ℕ := 0
  rawPasteCandidate : Units := []
  stringDiscardActive : Bool := false
  stringDiscardBytes : ℕ := 0
  stringDiscardEscHeld : Bool := false

/-- Whether there is anything behind two line breaks. -/
def isRawMultilineBurst (breaks : ℕ) : Units → Bool
  | [] => false
  | [code] => if code = 0x0d ∨ code = 0x0a then false else 2 ≤ breaks
  | code :: next :: text =>
    if code = 0x0d then
      if next = 0x0a then isRawMultilineBurst (breaks + 1) text
      else isRawMultilineBurst (breaks + 1) (next :: text)
    else if code = 0x0a then isRawMultilineBurst (breaks + 1) (next :: text)
    else if 2 ≤ breaks then true
    else isRawMultilineBurst breaks (next :: text)

namespace StdinBuffer

/-- What `process` has not consumed or emitted. -/
def buffered (s : StdinBuffer) : Units :=
  s.rawPasteCandidate ++ (if s.pasteMode then pasteStart ++ s.pasteChunks.flatten else []) ++
    s.buffer

def leavePaste (s : StdinBuffer) : StdinBuffer :=
  { s with pasteMode := false, pasteChunks := [], pasteOverlap := [], pasteBytes := 0 }

def abortPaste (s : StdinBuffer) : StdinBuffer :=
  { s.leavePaste with output := s.output.emitPaste s.pasteChunks.flatten }

/-- `#consumePasteChunk`, and what it passes to `process`. -/
def consumePasteChunk (pasteByteLimit : ℕ) (s : StdinBuffer) (chunk : Units) :
    StdinBuffer × Option Units :=
  let probe := s.pasteOverlap ++ chunk
  match cutAt pasteEnd probe with
  | none =>
    let kept := { s with
      pasteChunks := s.pasteChunks ++ [chunk]
      pasteBytes := s.pasteBytes + chunk.length
      pasteOverlap := probe.drop (probe.length - (pasteEnd.length - 1)) }
    (if pasteByteLimit < kept.pasteBytes then kept.abortPaste else kept, none)
  | some _ =>
    match cutAt pasteEnd (s.pasteChunks.flatten ++ chunk) with
    | none => (s, none)
    | some (pastedContent, remaining) =>
      let done := { s.leavePaste with output := s.output.clearPending.emitPaste pastedContent }
      (done, if remaining = [] then none else some remaining)

def enterStringDiscard (s : StdinBuffer) : StdinBuffer :=
  { s with stringDiscardActive := true, stringDiscardBytes := 0, stringDiscardEscHeld := false }

def exitStringDiscard (s : StdinBuffer) : StdinBuffer :=
  { s with stringDiscardActive := false, stringDiscardBytes := 0, stringDiscardEscHeld := false }

/-- What is behind the first terminator of a string, and else whether an ESC is last. -/
def discardScan : Units → Option Units × Bool
  | [] => (none, false)
  | 0x07 :: text => (some text, false)
  | [0x1b] => (none, true)
  | 0x1b :: 0x5c :: text => (some text, false)
  | _ :: text => discardScan text

def consumeStringDiscard (s : StdinBuffer) (str : Units) : StdinBuffer × Units :=
  if s.stringDiscardEscHeld ∧ str.head? = some 0x5c then (s.exitStringDiscard, str.drop 1)
  else
    match discardScan str with
    | (some text, _) => (s.exitStringDiscard, text)
    | (none, held) =>
      let swallowed := { s with
        stringDiscardEscHeld := held
        stringDiscardBytes := s.stringDiscardBytes + str.length }
      if stringDiscardMaxBytes < swallowed.stringDiscardBytes then
        (swallowed.exitStringDiscard, [])
      else (swallowed, [])

/-- `process` from the growing of the buffer on. -/
def processKeys (pasteByteLimit : ℕ) (s : StdinBuffer) (str : Units) :
    StdinBuffer × Option Units :=
  let buffer := s.buffer ++ str
  match cutAt pasteStart buffer with
  | some (beforePaste, firstChunk) =>
    let emitted := s.output.emitAll (extractCompleteSequences beforePaste 0).sequences
    consumePasteChunk pasteByteLimit
      { s with
        output := emitted.clearPending, buffer := [], escapeSearchOffset := 0, pasteMode := true
        pasteChunks := [], pasteOverlap := [], pasteBytes := 0 } firstChunk
  | none =>
    let result := extractCompleteSequences buffer s.escapeSearchOffset
    let emitted := s.output.emitAll result.sequences
    match result.discardFrom with
    | some junk =>
      let (discarding, after) := consumeStringDiscard
        { s with output := emitted, buffer := [], escapeSearchOffset := 0 }.enterStringDiscard junk
      (discarding, if after = [] then none else some after)
    | none =>
      ({ s with
        output := emitted
        buffer := result.remainder
        escapeSearchOffset := result.resumeSearchFrom }, none)

def flushRawPasteCandidate (s : StdinBuffer) : StdinBuffer :=
  { s with
    rawPasteCandidate := []
    output := s.output.emitAll (extractCompleteSequences s.rawPasteCandidate 0).sequences }

def emitRawPasteCandidate (s : StdinBuffer) : StdinBuffer :=
  { s with
    rawPasteCandidate := [], output := s.output.clearPending.emitPaste s.rawPasteCandidate }

/-- `process` where nothing is held as a raw paste. -/
def processUnheld (pasteByteLimit : ℕ) (s : StdinBuffer) (str : Units) :
    StdinBuffer × Option Units :=
  if s.buffer = [] ∧ esc ∉ str ∧ (0x0d ∈ str ∨ 0x0a ∈ str) then
    let held := { s with rawPasteCandidate := str }
    (if isRawMultilineBurst 0 str then held.emitRawPasteCandidate else held, none)
  else processKeys pasteByteLimit s str

/-- `process` outside a torn string. -/
def processText (pasteByteLimit : ℕ) (s : StdinBuffer) (str : Units) :
    StdinBuffer × Option Units :=
  if str = [] ∧ s.buffer = [] ∧ s.rawPasteCandidate = [] then
    ({ s with output := s.output.emitData [] }, none)
  else if s.pasteMode then consumePasteChunk pasteByteLimit s str
  else if s.rawPasteCandidate = [] then processUnheld pasteByteLimit s str
  else if esc ∈ str then processUnheld pasteByteLimit s.flushRawPasteCandidate str
  else
    let held := { s with rawPasteCandidate := s.rawPasteCandidate ++ str }
    (if isRawMultilineBurst 0 held.rawPasteCandidate then held.emitRawPasteCandidate else held,
      none)

/-- A call of `process` up to its call of itself. -/
def activate (pasteByteLimit : ℕ) (s : StdinBuffer) (str : Units) : StdinBuffer × Option Units :=
  if s.stringDiscardActive then
    let (discarding, rest) := consumeStringDiscard s str
    if rest = [] then (discarding, none) else processText pasteByteLimit discarding rest
  else processText pasteByteLimit s str

/-- What a call of `process` can pass on is part of this. -/
def size (s : StdinBuffer) (str : Units) : ℕ :=
  s.buffer.length + s.pasteChunks.flatten.length + str.length

theorem length_of_discardScan {text after : Units} {held : Bool}
    (h : discardScan text = (some after, held)) : after.length < text.length := by
  induction text using discardScan.induct with
  | case1 => cases h
  | case2 =>
    obtain ⟨h, -⟩ := Prod.mk.inj h
    rw [← Option.some.inj h]
    exact Nat.lt_succ_self _
  | case3 => cases h
  | case4 =>
    obtain ⟨h, -⟩ := Prod.mk.inj h
    rw [← Option.some.inj h]
    exact Nat.lt_of_lt_of_le (Nat.lt_succ_self _) (Nat.le_succ _)
  | case5 code text hbell hlast hst ih =>
    rw [discardScan.eq_5 code text hbell hlast hst] at h
    exact Nat.lt_of_lt_of_le (ih h) (Nat.le_succ _)

/-- Discarding looks at the text, and leaves the rest of the state. -/
theorem consumeStringDiscard_spec (s : StdinBuffer) (str : Units) :
    (s.consumeStringDiscard str).1.buffer = s.buffer ∧
      (s.consumeStringDiscard str).1.pasteChunks = s.pasteChunks ∧
      (s.consumeStringDiscard str).2.length ≤ str.length ∧
      (s.stringDiscardEscHeld = false → str ≠ [] →
        (s.consumeStringDiscard str).2.length < str.length) := by
  rw [consumeStringDiscard]
  split
  · next hheld =>
    refine ⟨rfl, rfl, ?_, fun hfalse => ?_⟩
    · rw [List.length_drop]
      exact Nat.sub_le _ _
    rw [hfalse] at hheld
    exact absurd hheld.1 Bool.false_ne_true
  split
  · next hscan =>
    have hlength := length_of_discardScan hscan
    exact ⟨rfl, rfl, hlength.le, fun _ _ => hlength⟩
  have hpos : str ≠ [] → 0 < str.length := List.length_pos_iff.mpr
  dsimp only
  split
  · exact ⟨rfl, rfl, Nat.zero_le _, fun _ => hpos⟩
  · exact ⟨rfl, rfl, Nat.zero_le _, fun _ => hpos⟩

theorem consumePasteChunk_size {pasteByteLimit : ℕ} {s s' : StdinBuffer} {chunk rest : Units}
    (h : consumePasteChunk pasteByteLimit s chunk = (s', some rest)) :
    size s' rest < size s chunk := by
  rw [consumePasteChunk] at h
  split at h
  · cases h
  split at h
  · cases h
  next remaining hcut =>
  split at h
  · cases h
  obtain ⟨rfl, hrest⟩ := Prod.mk.inj h
  rw [← Option.some.inj hrest]
  have hlength := congrArg List.length (eq_of_cutAt hcut)
  simp only [List.length_append] at hlength
  have hmarker : pasteEnd.length = 6 := rfl
  show s.buffer.length + 0 + remaining.length < _
  rw [size]
  omega

end StdinBuffer

theorem discardFrom_length {first : Bool} {junk : Units}
    (h : (extractLoop first buffer hint).discardFrom = some junk) :
    junk ≠ [] ∧ junk.length ≤ buffer.length := by
  induction first, buffer, hint using extractLoop.induct with
  | case1 =>
    rw [extractLoop, if_pos rfl] at h
    cases h
  | case2 first buffer hint hne hstep =>
    rw [extractLoop, if_neg hne] at h
    split at h
    · cases h
    · next hother => rw [hstep] at hother; cases hother
    · next hother => rw [hstep] at hother; cases hother
  | case3 first buffer hint hne hstep =>
    rw [extractLoop, if_neg hne] at h
    split at h
    · next hother => rw [hstep] at hother; cases hother
    · rw [← Option.some.inj h]
      exact ⟨hne, le_rfl⟩
    · next hother => rw [hstep] at hother; cases hother
  | case4 first buffer hint hne sequences taken hstep ih =>
    rw [extractLoop, if_neg hne] at h
    split at h
    · next hother => rw [hstep] at hother; cases hother
    · next hother => rw [hstep] at hother; cases hother
    next hother =>
    rw [hstep] at hother
    cases hother
    obtain ⟨hjunk, hle⟩ := ih h
    rw [List.length_drop] at hle
    exact ⟨hjunk, by omega⟩

namespace StdinBuffer

variable {pasteByteLimit : ℕ} {s s' : StdinBuffer} {str rest : Units}

theorem processKeys_size
    (h : processKeys pasteByteLimit s str = (s', some rest)) : size s' rest < size s str := by
  rw [processKeys] at h
  split at h
  · next firstChunk hcut =>
    have hlength := congrArg List.length (eq_of_cutAt hcut)
    simp only [List.length_append] at hlength
    refine Nat.lt_of_lt_of_le (consumePasteChunk_size h) ?_
    show 0 + 0 + firstChunk.length ≤ _
    rw [size]
    omega
  dsimp only at h
  split at h
  · next junk hjunk =>
    obtain ⟨hne, hle⟩ := discardFrom_length hjunk
    rw [List.length_append] at hle
    obtain ⟨hstate, hrest⟩ := Prod.mk.inj h
    split at hrest
    · cases hrest
    obtain ⟨hbuffer, hchunks, -, hlt⟩ := consumeStringDiscard_spec
      (enterStringDiscard { s with
        output := s.output.emitAll
          (extractCompleteSequences (s.buffer ++ str) s.escapeSearchOffset).sequences
        buffer := [], escapeSearchOffset := 0 }) junk
    have hlt := hlt rfl hne
    rw [size, ← hstate, ← Option.some.inj hrest, hbuffer, hchunks]
    show 0 + s.pasteChunks.flatten.length + _ < _
    rw [size]
    omega
  · cases h

theorem processUnheld_size
    (h : processUnheld pasteByteLimit s str = (s', some rest)) : size s' rest < size s str := by
  rw [processUnheld] at h
  split at h
  · cases h
  · exact processKeys_size h

theorem processText_size
    (h : processText pasteByteLimit s str = (s', some rest)) : size s' rest < size s str := by
  rw [processText] at h
  split at h
  · cases h
  split at h
  · exact consumePasteChunk_size h
  split at h
  · exact processUnheld_size h
  · split at h
    · have hsize := processUnheld_size h
      exact hsize
    · cases h

theorem activate_size
    (h : activate pasteByteLimit s str = (s', some rest)) : size s' rest < size s str := by
  rw [activate] at h
  split at h
  · dsimp only at h
    split at h
    · cases h
    obtain ⟨hbuffer, hchunks, hle, -⟩ := consumeStringDiscard_spec s str
    have hsize := processText_size h
    rw [size, size, hbuffer, hchunks] at hsize
    rw [size, size]
    omega
  · exact processText_size h

def process (pasteByteLimit : ℕ) (s : StdinBuffer) (str : Units) : StdinBuffer :=
  match _hstep : activate pasteByteLimit s str with
  | (s', none) => s'
  | (s', some rest) => process pasteByteLimit s' rest
termination_by size s str
decreasing_by exact activate_size _hstep

/-- The chunks of input, to a fresh buffer. -/
def feed (pasteByteLimit : ℕ) (chunks : List Units) : StdinBuffer :=
  chunks.foldl (process pasteByteLimit) {}

end StdinBuffer

end BreadboardTui.Tui
