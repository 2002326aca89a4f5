import BreadboardTui.Hashline.BlockEdits
import BreadboardTui.Hashline.Tokenizer

/-!
# The executor

The executor reads the tokens of a section and makes its edits of them. It keeps the hunk it is in,
and lowers it when the next one begins or the section ends. Rows without the `+` of a body row may
be many things (comments, metadata of a read, a range without its keyword, rows of an older text),
and the executor guesses which one they are.

The regular expressions of the guesses are parameters. An error stands for its message, and so
does a warning.
-/

namespace BreadboardTui.Hashline

open List

open BlockEdits (Cursor PasteTarget BlockOp spanLines ConcreteHunk)

/-! ### What the executor makes -/

/-- An edit, with the text of its rows in code units. Its place in the list stands for its
`index`. -/
inductive RowEdit where
  | insert (cursor : Cursor) (text : Units) (lineNum : ℕ) (replacement : Bool)
  | delete (line lineNum : ℕ)
  | cut (start stop : ℕ) (register : Option Units) (lineNum : ℕ)
  | paste (target : PasteTarget) (register : Option Units) (lineNum : ℕ)
  | block (line : ℕ) (payloads : List Units) (op : BlockOp) (register : Option Units)
      (lineNum : ℕ)
  deriving DecidableEq, Repr

inductive PatchFileOp where
  | rem
  | move (dest : Units)
  deriving DecidableEq, Repr

inductive ParseError where
  | rangeEndpoints (lineNum : ℕ)
  | invalidAbsoluteRange (lineNum start stop : ℕ)
  | rangeTooLong (lineNum span : ℕ)
  | colonOnRegisterPut (lineNum : ℕ)
  | onlyOneFileOp (lineNum : ℕ)
  | remTakesNoBody (lineNum : ℕ)
  | remWithLineOps
  | moveTakesNoBody (lineNum : ℕ)
  | cutTakesNoBody (lineNum : ℕ)
  | registerPutTakesNoBody (lineNum : ℕ)
  | colonlessPutTakesNoBody (lineNum : ℕ)
  | noPrecedingHunk (lineNum : ℕ) (text : Units)
  | contamination (lineNum : ℕ) (text : Units)
  | repeatedSnapshotRow (lineNum line : ℕ)
  | minusRowRejected (lineNum : ℕ)
  | colonlessSpanPut (lineNum : ℕ)
  | emptyInsert (lineNum : ℕ)
  | alreadyTargeted
  | closedTokenizer
  | invalidHeader (line : Units)
  | emptyPath
  | missingHeader (line : Units)
  | conflictingTags (path : Units)
  | interleavedClipboard
  deriving DecidableEq, Repr

inductive ParseWarning where
  | cutColonIgnored
  | bareBodyAutoPiped
  | bareRangeAutoPut
  | diffOldRowsIgnored
  | emptyPutAutoCut
  | literalOpRow (lineNum : ℕ) (text : Units)
  | minusBulletAutoPiped
  | readMetadataIgnored
  | replacePairCoalesced
  | snapshotRowsAutoPut
  deriving DecidableEq, Repr

/-- The regular expressions that rows are tested with. -/
structure RowShapes where
  isReadMetadataLine : Units → Bool
  detectApplyPatchContamination : Units → Bool
  parseTopLevelBareRangeHeader : Units → Option (ℕ × ℕ)
  parseTopLevelSnapshotRow : Units → Option (ℕ × Units)
  mdBulletRow : Units → Bool
  bareLiteralValue : Units → Bool
  stripOneLeadingHashlinePrefix : Units → Units

structure PayloadRow where
  text : Units
  lineNum : ℕ
  bare : Bool := false
  minus : Bool := false
  deriving DecidableEq, Repr

/-- The hunk that the executor is in. -/
structure Pending where
  target : BlockTarget
  lineNum : ℕ
  payloads : List PayloadRow := []
  hadColon : Bool
  deferredBlanks : List PayloadRow := []
  deriving DecidableEq, Repr

structure Executor where
  edits : List RowEdit := []
  warnings : List ParseWarning := []
  pending : Option Pending := none
  fileOp : Option PatchFileOp := none
  terminated : Bool := false
  skippableComments : List (ℕ × Units) := []
  recoveredSnapshotLines : List ℕ := []
  deriving DecidableEq, Repr

/-! ### Targets -/

def maxExpandedRangeLines : ℕ := 100000

def validateRange (start stop lineNum : ℕ) : Except ParseError Unit :=
  if maxSafeInteger < start ∨ start < 1 ∨ maxSafeInteger < stop ∨ stop < 1 then
    .error (.rangeEndpoints lineNum)
  else if stop < start then .error (.invalidAbsoluteRange lineNum start stop)
  else if maxExpandedRangeLines < stop - start + 1 then
    .error (.rangeTooLong lineNum (stop - start + 1))
  else .ok ()

def BlockTarget.validate (lineNum : ℕ) : BlockTarget → Except ParseError Unit
  | .replace start stop _ => validateRange start stop lineNum
  | .cut start stop _ => validateRange start stop lineNum
  | _ => .ok ()

def BlockTarget.register : BlockTarget → Option Units
  | .replace _ _ register | .block _ register | .insertBefore _ register
  | .insertAfter _ register | .insertAfterBlock _ register | .cut _ _ register
  | .cutBlock _ register | .bof register | .eof register => register
  | .rem | .move _ => none

def BlockTarget.isCut : BlockTarget → Bool
  | .cut _ _ _ | .cutBlock _ _ => true
  | _ => false

/-- The rejection of a body row. -/
def bodylessTargetMessage (target : BlockTarget) (hadColon : Bool) (lineNum : ℕ) :
    Option ParseError :=
  match target with
  | .cut _ _ _ | .cutBlock _ _ => some (.cutTakesNoBody lineNum)
  | .rem | .move _ => none
  | _ =>
    if target.register.isSome then some (.registerPutTakesNoBody lineNum)
    else if hadColon = false then some (.colonlessPutTakesNoBody lineNum)
    else none

def isSkippableCommentLine (line : Units) : Bool := (line.dropWhile isTrimmedCode).head? = some 35

/-- `#pushDeleteRange`. -/
def deleteRows (start stop lineNum : ℕ) : List RowEdit :=
  (spanLines start stop).map fun line => .delete line lineNum

/-- `#emitPayloadRows`. -/
def insertRows (cursor : Cursor) (payloads : List Units) (lineNum : ℕ) (replacement : Bool) :
    List RowEdit :=
  payloads.map fun text => .insert cursor text lineNum replacement

/-- The edits of a hunk at a gap. -/
def emitGap (cursor : Cursor) (register : Option Units) (hadColon : Bool) (lineNum : ℕ)
    (payloads : List Units) : Except ParseError (List RowEdit) :=
  if register.isSome ∨ (hadColon = false ∧ payloads = []) then
    .ok [.paste (.gap cursor) register lineNum]
  else if payloads = [] then .error (.emptyInsert lineNum)
  else .ok (insertRows cursor payloads lineNum false)

/-- The edits that `#flushPending` pushes for a hunk with these rows. -/
def emit (target : BlockTarget) (hadColon : Bool) (lineNum : ℕ) (payloads : List Units) :
    Except ParseError (List RowEdit) :=
  match target with
  | .rem | .move _ => .ok []
  | .cut start stop register =>
    .ok (.cut start stop register lineNum :: deleteRows start stop lineNum)
  | .cutBlock line register => .ok [.block line [] .cut register lineNum]
  | .replace start stop (some register) =>
    .ok [.paste (.span start stop) (some register) lineNum]
  | .replace start stop none =>
    -- without rows and with a colon the span is cut
    if payloads = [] ∧ hadColon = false then .error (.colonlessSpanPut lineNum)
    else
      .ok (insertRows (.beforeAnchor start) payloads lineNum true ++
        deleteRows start stop lineNum)
  | .block line (some register) => .ok [.block line [] .replace (some register) lineNum]
  | .block line none =>
    if payloads = [] ∧ hadColon = false then .error (.colonlessSpanPut lineNum)
    else .ok [.block line payloads .replace none lineNum]
  | .insertAfterBlock line register =>
    if register.isSome ∨ (hadColon = false ∧ payloads = []) then
      .ok [.block line [] .pasteAfter register lineNum]
    else if payloads = [] then .error (.emptyInsert lineNum)
    else .ok [.block line payloads .insertAfter none lineNum]
  | .insertBefore line register => emitGap (.beforeAnchor line) register hadColon lineNum payloads
  | .insertAfter line register => emitGap (.afterAnchor line) register hadColon lineNum payloads
  | .bof register => emitGap .bof register hadColon lineNum payloads
  | .eof register => emitGap .eof register hadColon lineNum payloads

/-- A put over a span or a block without rows, which cuts it. -/
def isEmptyPut (target : BlockTarget) (payloads : List PayloadRow) : Bool :=
  match target with
  | .replace _ _ none | .block _ none => payloads.isEmpty
  | _ => false

/-! ### Overlapping hunks -/

def RowEdit.lineNum : RowEdit → ℕ
  | .insert _ _ lineNum _ | .delete _ lineNum | .cut _ _ _ lineNum | .paste _ _ lineNum
  | .block _ _ _ _ lineNum => lineNum

/-- The lines an edit deletes or pastes over. -/
def RowEdit.sourceLines : RowEdit → List ℕ
  | .delete line _ => [line]
  | .paste (.span start stop) _ _ => spanLines start stop
  | _ => []

/-- The edit is a cut, or a paste over a span. -/
def RowEdit.clipboardDependent : RowEdit → Bool
  | .cut _ _ _ _ => true
  | .paste (.span _ _) _ _ => true
  | _ => false

/-- The hunk of the edits whose header is on a line. -/
def hunkFor (edits : List RowEdit) (lineNum : ℕ) : ConcreteHunk where
  lineNum := lineNum
  sourceLines :=
    ((edits.filter fun edit => edit.lineNum = lineNum).flatMap RowEdit.sourceLines).dedup
  clipboardDependent :=
    (edits.filter fun edit => edit.lineNum = lineNum).any RowEdit.clipboardDependent

/-- The edit counts for the hunk of its header: it deletes, cuts or pastes over lines. -/
def RowEdit.isConcrete : RowEdit → Bool
  | .delete _ _ | .cut _ _ _ _ | .paste (.span _ _) _ _ => true
  | _ => false

/-- The hunks of the edits, in the order of their first ones: of equal line numbers `dedup` keeps
the last one. -/
def hunksOf (edits : List RowEdit) : List ConcreteHunk :=
  ((edits.filter RowEdit.isConcrete).map RowEdit.lineNum).reverse.dedup.reverse.map (hunkFor edits)

namespace Executor

variable (shapes : RowShapes)

def warn (ex : Executor) (warning : ParseWarning) : Executor :=
  { ex with warnings := ex.warnings ++ [warning] }

def warnOnce (ex : Executor) (warning : ParseWarning) : Executor :=
  if warning ∈ ex.warnings then ex else ex.warn warning

def normalizeOverlappingRanges (ex : Executor) : Except ParseError Executor :=
  match BlockEdits.normalize [] [] (hunksOf ex.edits) with
  | none => .error .alreadyTargeted
  | some [] => .ok ex
  | some (lineNum :: dropped) =>
    .ok { ex.warnOnce .replacePairCoalesced with
      edits := ex.edits.filter fun edit => !(lineNum :: dropped).contains edit.lineNum }

/-! ### Body rows -/

def commitDeferredBlanks (ex : Executor) (pending : Pending) : Executor × Pending :=
  if pending.deferredBlanks = [] then (ex, pending)
  else
    (ex.warnOnce .bareBodyAutoPiped,
      { pending with payloads := pending.payloads ++ pending.deferredBlanks
                     deferredBlanks := [] })

def handleLiteralPayload (ex : Executor) (text : Units) (lineNum : ℕ) :
    Except ParseError Executor :=
  match ex.pending with
  | none =>
    -- a row behind `MV` is taken for its body
    if ex.fileOp.isSome then .error (.moveTakesNoBody lineNum)
    else .error (.noPrecedingHunk lineNum (43 :: text))
  | some pending =>
    match bodylessTargetMessage pending.target pending.hadColon lineNum with
    | some message => .error message
    | none =>
      -- the blanks between two rows belong to the body
      let (ex, pending) := ex.commitDeferredBlanks pending
      let ex := if isHunkHeaderText text then ex.warn (.literalOpRow lineNum text) else ex
      .ok { ex with
        pending := some { pending with
          payloads := pending.payloads ++ [⟨text, lineNum, false, false⟩] } }

def handleBlank (ex : Executor) (text : Units) (lineNum : ℕ) : Executor :=
  match ex.pending with
  | none => ex
  | some pending =>
    if (bodylessTargetMessage pending.target pending.hadColon lineNum).isSome ∨
        pending.payloads = [] then ex
    else
      { ex with
        pending := some { pending with
          deferredBlanks := pending.deferredBlanks ++ [⟨text, lineNum, true, false⟩] } }

/-- A row without a sigil, inside of a hunk. -/
def handleBareRow (ex : Executor) (pending : Pending) (text : Units) (lineNum : ℕ) :
    Except ParseError Executor :=
  if trim text = [] then .ok (ex.handleBlank text lineNum)
  else
    match bodylessTargetMessage pending.target pending.hadColon lineNum with
    | some message => .error message
    | none =>
      let minus := (text.dropWhile isTrimmedCode).head? = some 45
      let ex := if minus then ex else ex.warnOnce .bareBodyAutoPiped
      let (ex, pending) := ex.commitDeferredBlanks pending
      .ok { ex with
        pending := some { pending with
          payloads := pending.payloads ++ [⟨text, lineNum, true, minus⟩] } }

/-- A row without a sigil, outside of any hunk. -/
def handleTopLevelRow (ex : Executor) (text : Units) (lineNum : ℕ) : Except ParseError Executor :=
  if trim text = [] then .ok ex
  else
    match shapes.parseTopLevelBareRangeHeader text with
    | some (start, stop) => do
      validateRange start stop lineNum
      .ok { ex.warnOnce .bareRangeAutoPut with
        pending := some
          { target := .replace start stop none, lineNum := lineNum, hadColon := true } }
    | none =>
      match shapes.parseTopLevelSnapshotRow text with
      | some (line, row) =>
        if line ∈ ex.recoveredSnapshotLines then .error (.repeatedSnapshotRow lineNum line)
        else do
          validateRange line line lineNum
          .ok { ex.warnOnce .snapshotRowsAutoPut with
            recoveredSnapshotLines := ex.recoveredSnapshotLines ++ [line]
            edits := ex.edits ++
              (insertRows (.beforeAnchor line) [row] lineNum true ++ deleteRows line line lineNum) }
      | none => .error (.noPrecedingHunk lineNum text)

def handleRaw (ex : Executor) (text : Units) (lineNum : ℕ) : Except ParseError Executor :=
  if ex.pending.isNone && shapes.isReadMetadataLine text then .ok (ex.warnOnce .readMetadataIgnored)
  else if shapes.detectApplyPatchContamination text then .error (.contamination lineNum text)
  else if ex.fileOp.isSome then .error (.moveTakesNoBody lineNum)
  else
    match ex.pending with
    | some pending => ex.handleBareRow pending text lineNum
    | none => ex.handleTopLevelRow shapes text lineNum

def consumePendingSkippableComments (ex : Executor) : Except ParseError Executor := do
  let ex ← ex.skippableComments.foldlM
    (fun ex comment => ex.handleRaw shapes comment.2 comment.1) ex
  .ok { ex with skippableComments := [] }

/-- The `-` rows of a body, once it is known whole. -/
def resolveMinusRows (ex : Executor) (payloads : List PayloadRow) :
    Except ParseError (List PayloadRow × Executor) :=
  let allBulletShaped :=
    (payloads.filter PayloadRow.minus).all fun row => shapes.mdBulletRow row.text
  let explicit := payloads.filter fun row => !row.minus && !row.bare
  match payloads.find? PayloadRow.minus with
  | none => .ok (payloads, ex)
  | some firstMinus =>
    if allBulletShaped && (explicit.isEmpty || explicit.any fun row => shapes.mdBulletRow row.text)
    then .ok (payloads, ex.warnOnce .minusBulletAutoPiped)
    else if !explicit.isEmpty && !allBulletShaped then
      .ok (payloads.filter fun row => !row.minus, ex.warnOnce .diffOldRowsIgnored)
    else .error (.minusRowRejected firstMinus.lineNum)

/-- The row may carry the line number of a read. -/
def isBareText (row : PayloadRow) : Bool := row.bare && !(trim row.text).isEmpty

def stripBarePrefixesIfUniform (payloads : List PayloadRow) : List PayloadRow :=
  let bareRows := payloads.filter isBareText
  if bareRows = [] ∨
      (bareRows.any fun row => shapes.stripOneLeadingHashlinePrefix row.text = row.text) ∨
      (bareRows.all fun row =>
        shapes.bareLiteralValue (shapes.stripOneLeadingHashlinePrefix row.text)) then
    payloads
  else
    payloads.map fun row =>
      if isBareText row then
        { row with text := shapes.stripOneLeadingHashlinePrefix row.text }
      else row

def flushPending (ex : Executor) : Except ParseError Executor :=
  match ex.pending with
  | none => .ok ex
  | some pending => do
    let (payloads, ex) ← ex.resolveMinusRows shapes pending.payloads
    let payloads := stripBarePrefixesIfUniform shapes payloads
    let edits ← emit pending.target pending.hadColon pending.lineNum
      (payloads.map PayloadRow.text)
    let ex := if isEmptyPut pending.target payloads then ex.warnOnce .emptyPutAutoCut else ex
    .ok { ex with pending := none, edits := ex.edits ++ edits }

/-! ### Tokens -/

def setFileOp (ex : Executor) (fileOp : PatchFileOp) (lineNum : ℕ) : Except ParseError Executor :=
  if ex.fileOp.isSome then .error (.onlyOneFileOp lineNum)
  else if fileOp = .rem ∧ ex.edits ≠ [] then .error (.remTakesNoBody lineNum)
  else .ok { ex with fileOp := some fileOp }

/-- The token of an op. -/
def feedOp (ex : Executor) (target : BlockTarget) (hadColon : Bool) (lineNum : ℕ) :
    Except ParseError Executor := do
  target.validate lineNum
  let ex := if hadColon && target.isCut then ex.warnOnce .cutColonIgnored else ex
  if hadColon && target.register.isSome then .error (.colonOnRegisterPut lineNum)
  else
    let ex ← ex.flushPending shapes
    match target with
    | .rem => ex.setFileOp .rem lineNum
    | .move dest => ex.setFileOp (.move dest) lineNum
    | _ =>
      .ok { ex with
        pending := some { target := target, lineNum := lineNum, hadColon := hadColon } }

def feed (ex : Executor) (token : Token) : Except ParseError Executor :=
  if ex.terminated then .ok ex
  else
    match token.kind with
    | .envelopeBegin => ex.consumePendingSkippableComments shapes
    | .envelopeEnd => do
      let ex ← ex.consumePendingSkippableComments shapes
      .ok { ex with terminated := true }
    | .abort => .ok { ex with terminated := true }
    | .header _ _ => do
      let ex ← ex.consumePendingSkippableComments shapes
      ex.flushPending shapes
    | .blank => do
      let ex ← ex.consumePendingSkippableComments shapes
      .ok (ex.handleBlank [] token.lineNum)
    | .payloadLiteral text => do
      let ex ← ex.consumePendingSkippableComments shapes
      ex.handleLiteralPayload text token.lineNum
    | .raw text =>
      if ex.pending.isNone && isSkippableCommentLine text then
        .ok { ex with skippableComments := ex.skippableComments ++ [(token.lineNum, text)] }
      else do
        let ex ← ex.consumePendingSkippableComments shapes
        ex.handleRaw shapes text token.lineNum
    | .opBlock target hadColon =>
      { ex with skippableComments := [] }.feedOp shapes target hadColon token.lineNum

def validateFileOp (ex : Executor) : Except ParseError Unit :=
  if ex.fileOp = some .rem ∧ ex.edits ≠ [] then .error .remWithLineOps else .ok ()

/-- `end`. -/
def finish (ex : Executor) : Except ParseError Executor := do
  let ex ← ex.consumePendingSkippableComments shapes
  let ex ← ex.flushPending shapes
  ex.validateFileOp
  ex.normalizeOverlappingRanges

/-- The op is whole without body rows, where the end of a stream may have cut them off. -/
def isCompleteBodylessOp (pending : Pending) : Bool :=
  match pending.target with
  | .cut _ _ _ | .cutBlock _ _ => true
  | .rem | .move _ => false
  | .replace _ _ register | .block _ register => register.isSome
  | target => target.register.isSome || !pending.hadColon

/-- What the end of a stream makes of the hunk. -/
def flushComplete (ex : Executor) : Except ParseError Executor :=
  match ex.pending with
  | none => .ok ex
  | some pending =>
    if pending.payloads ≠ [] ∨ isCompleteBodylessOp pending then ex.flushPending shapes
    else .ok { ex with pending := none }

/-- `endStreaming`. -/
def finishStreaming (ex : Executor) : Except ParseError Executor := do
  let ex ← ex.consumePendingSkippableComments shapes
  let ex ← ex.flushComplete shapes
  ex.validateFileOp
  ex.normalizeOverlappingRanges

/-- `reset`: the recovered rows stay. -/
def reset (ex : Executor) : Executor := { recoveredSnapshotLines := ex.recoveredSnapshotLines }

/-- Feeds tokens in turn. -/
def feedAll (ex : Executor) (tokens : List Token) : Except ParseError Executor :=
  tokens.foldlM (feed shapes) ex

end Executor

/-- The edits of a section, its file operation and its warnings, in the executor that has read
it. -/
def parsePatch (shapes : RowShapes) (diff : Units) : Except ParseError Executor :=
  match Tokenizer.feed {} diff with
  | .error _ => .error .closedTokenizer
  | .ok (tokens, tokenizer) => do
    let ex ← Executor.feedAll shapes {} tokens
    let ex ← ex.feedAll shapes tokenizer.endTokens.1
    ex.finish shapes

/-! ### Between two tokens -/

namespace Executor

variable {shapes : RowShapes} {ex : Executor} {edits es : List RowEdit}

/-- The executor has made these edits and is in this hunk, and in no other state that a row could
be taken differently for. -/
structure Ready (ex : Executor) (edits : List RowEdit) (pending : Option Pending) : Prop where
  edits_eq : ex.edits = edits
  pending_eq : ex.pending = pending
  fileOp_eq : ex.fileOp = none
  terminated_eq : ex.terminated = false
  comments_eq : ex.skippableComments = []

/-- A row that was written with the sigil. -/
def PlainRow (row : PayloadRow) : Prop := row.bare = false ∧ row.minus = false

/-- The executor is in a hunk with these rows, all of which were written with the sigil. -/
def InHunk (ex : Executor) (edits : List RowEdit) (target : BlockTarget) (hadColon : Bool)
    (lineNum : ℕ) (rows : List Units) : Prop :=
  ∃ payloads : List PayloadRow,
    Ready ex edits (some ⟨target, lineNum, payloads, hadColon, []⟩) ∧
      payloads.map PayloadRow.text = rows ∧ ∀ row ∈ payloads, PlainRow row

/-- With the hunk it is in, the executor has these edits. -/
structure FlushesTo (shapes : RowShapes) (ex : Executor) (edits : List RowEdit) : Prop where
  terminated_eq : ex.terminated = false
  comments_eq : ex.skippableComments = []
  flush : ∃ ex', ex.flushPending shapes = .ok ex' ∧ Ready ex' edits none

theorem Ready.warnOnce {pending : Option Pending} (h : Ready ex edits pending) (w : ParseWarning) :
    Ready (ex.warnOnce w) edits pending := by
  rw [Executor.warnOnce]
  split
  · exact h
  · exact ⟨h.edits_eq, h.pending_eq, h.fileOp_eq, h.terminated_eq, h.comments_eq⟩

theorem consume_of_no_comments (h : ex.skippableComments = []) :
    ex.consumePendingSkippableComments shapes = .ok ex := by
  rw [consumePendingSkippableComments, h]
  change Except.ok { ex with skippableComments := [] } = _
  rw [← h]

variable {payloads : List PayloadRow}

/-- Rows with the sigil are no `-` rows. -/
theorem resolveMinusRows_plain (h : ∀ row ∈ payloads, PlainRow row) :
    ex.resolveMinusRows shapes payloads = .ok (payloads, ex) := by
  have hnone : payloads.find? PayloadRow.minus = none := by
    rw [find?_eq_none]
    intro row hrow
    rw [(h row hrow).2]
    exact Bool.false_ne_true
  simp [resolveMinusRows, hnone]

/-- Nothing is stripped from rows with the sigil. -/
theorem stripBarePrefixes_plain (h : ∀ row ∈ payloads, PlainRow row) :
    stripBarePrefixesIfUniform shapes payloads = payloads := by
  have hnil : payloads.filter isBareText = [] := by
    rw [filter_eq_nil_iff]
    intro row hrow
    rw [isBareText, (h row hrow).1]
    exact Bool.false_ne_true
  simp [stripBarePrefixesIfUniform, hnil]

theorem InHunk.flushesTo {target : BlockTarget} {hadColon : Bool} {lineNum : ℕ}
    {rows : List Units} (h : InHunk ex edits target hadColon lineNum rows)
    (hemit : emit target hadColon lineNum rows = .ok es) : FlushesTo shapes ex (edits ++ es) := by
  obtain ⟨payloads, hready, rfl, hplain⟩ := h
  refine ⟨hready.terminated_eq, hready.comments_eq, ?_⟩
  rw [flushPending, hready.pending_eq]
  simp only [resolveMinusRows_plain hplain, stripBarePrefixes_plain hplain, hemit, bind,
    Except.bind]
  refine ⟨_, rfl, ?_⟩
  -- the warning for a put without rows changes none of what is known
  have hwarned : Ready (if isEmptyPut target payloads then ex.warnOnce .emptyPutAutoCut else ex)
      edits (some ⟨target, lineNum, payloads, hadColon, []⟩) := by
    split
    · exact hready.warnOnce _
    · exact hready
  exact ⟨congrArg (· ++ es) hwarned.edits_eq, rfl, hwarned.fileOp_eq, hwarned.terminated_eq,
    hwarned.comments_eq⟩

theorem flushesTo_init : FlushesTo shapes {} [] :=
  ⟨rfl, rfl, {}, rfl, rfl, rfl, rfl, rfl, rfl⟩

/-- What an op and its body rows are: the op is in order, only an op that promises rows has some,
and these are the edits it is lowered to. -/
structure Lowers (target : BlockTarget) (hadColon : Bool) (rows : List Units)
    (lowered : ℕ → List RowEdit) : Prop where
  valid : ∀ lineNum, target.validate lineNum = .ok ()
  colon : hadColon = true → target.register = none ∧ target.isCut = false
  lineOp : target ≠ .rem ∧ ∀ dest, target ≠ .move dest
  body : rows ≠ [] → hadColon = true
  emits : ∀ lineNum, emit target hadColon lineNum rows = .ok (lowered lineNum)

variable {target : BlockTarget} {hadColon : Bool} {rows : List Units}
  {lowered : ℕ → List RowEdit}

theorem feed_op (h : FlushesTo shapes ex edits) (hop : Lowers target hadColon rows lowered)
    (lineNum : ℕ) :
    ∃ ex', ex.feed shapes ⟨lineNum, .opBlock target hadColon⟩ = .ok ex' ∧
      InHunk ex' edits target hadColon lineNum [] := by
  obtain ⟨flushed, hflush, hready⟩ := h.flush
  have hcomments : { ex with skippableComments := [] } = ex := by rw [← h.comments_eq]
  have hcut : (hadColon && target.isCut) = false := by
    cases hadColon with
    | false => rfl
    | true => exact (hop.colon rfl).2
  have hregister : (hadColon && target.register.isSome) = false := by
    cases hadColon with
    | false => rfl
    | true =>
      rw [(hop.colon rfl).1]
      rfl
  refine ⟨{ flushed with
    pending := some { target := target, lineNum := lineNum, hadColon := hadColon } }, ?_, ?_⟩
  · rw [feed, if_neg (by rw [h.terminated_eq]; exact Bool.false_ne_true)]
    simp only [hcomments, feedOp, hop.valid, hcut, hregister, hflush, bind, Except.bind,
      Bool.false_eq_true, if_false]
    cases target with
    | rem => exact absurd rfl hop.lineOp.1
    | move dest => exact absurd rfl (hop.lineOp.2 dest)
    | _ => rfl
  refine ⟨[], ⟨hready.edits_eq, rfl, hready.fileOp_eq, hready.terminated_eq,
    hready.comments_eq⟩, rfl, ?_⟩
  intro row hrow
  cases hrow

/-- An op with a colon, without a register, and not a cut, takes body rows. -/
theorem bodyless_none (hop : Lowers target true rows lowered) (lineNum : ℕ) :
    bodylessTargetMessage target true lineNum = none := by
  obtain ⟨hregister, hcut⟩ := hop.colon rfl
  cases target with
  | cut => cases hcut
  | cutBlock => cases hcut
  | rem => rfl
  | move => rfl
  | _ => simp [bodylessTargetMessage, hregister]

variable {before : List Units}

theorem feed_row (h : InHunk ex edits target true lineNum before)
    (hop : Lowers target true rows lowered) (n : ℕ) (text : Units) :
    ∃ ex', ex.feed shapes ⟨n, .payloadLiteral text⟩ = .ok ex' ∧
      InHunk ex' edits target true lineNum (before ++ [text]) := by
  obtain ⟨payloads, hready, rfl, hplain⟩ := h
  rw [feed, if_neg (by rw [hready.terminated_eq]; exact Bool.false_ne_true)]
  simp only [consume_of_no_comments hready.comments_eq, bind, Except.bind, handleLiteralPayload,
    hready.pending_eq, bodyless_none hop, commitDeferredBlanks, if_true]
  refine ⟨_, rfl, payloads ++ [⟨text, n, false, false⟩], ?_, ?_, ?_⟩
  · split
    · exact ⟨hready.edits_eq, rfl, hready.fileOp_eq, hready.terminated_eq, hready.comments_eq⟩
    · exact ⟨hready.edits_eq, rfl, hready.fileOp_eq, hready.terminated_eq, hready.comments_eq⟩
  · rw [map_append, map_singleton]
  intro row hrow
  rcases mem_append.mp hrow with hrow | hrow
  · exact hplain row hrow
  obtain rfl := mem_singleton.mp hrow
  exact ⟨rfl, rfl⟩

/-- The tokens of rows with the sigil, from line `n` on. -/
def rowTokens (n : ℕ) : List Units → List Token
  | [] => []
  | row :: rows => ⟨n, .payloadLiteral row⟩ :: rowTokens (n + 1) rows

theorem feedAll_cons (ex : Executor) (token : Token) (tokens : List Token) :
    ex.feedAll shapes (token :: tokens) =
      (ex.feed shapes token).bind fun ex => ex.feedAll shapes tokens := rfl

theorem feed_rows (h : InHunk ex edits target true lineNum before)
    (hop : Lowers target true rows lowered) (n : ℕ) (more : List Units) :
    ∃ ex', ex.feedAll shapes (rowTokens n more) = .ok ex' ∧
      InHunk ex' edits target true lineNum (before ++ more) := by
  induction more generalizing ex before n with
  | nil =>
    rw [append_nil]
    exact ⟨ex, rfl, h⟩
  | cons row more ih =>
    obtain ⟨ex', hfeed, hin⟩ := feed_row h hop n row
    obtain ⟨ex'', hrest, hin'⟩ := ih hin (n + 1)
    refine ⟨ex'', ?_, ?_⟩
    · rw [rowTokens, feedAll_cons, hfeed]
      exact hrest
    · rwa [append_assoc, singleton_append] at hin'

theorem feed_hunk (h : FlushesTo shapes ex edits) (hop : Lowers target hadColon rows lowered)
    (lineNum : ℕ) :
    ∃ ex', ex.feedAll shapes
        (⟨lineNum, .opBlock target hadColon⟩ :: rowTokens (lineNum + 1) rows) = .ok ex' ∧
      FlushesTo shapes ex' (edits ++ lowered lineNum) := by
  obtain ⟨opened, hfeed, hin⟩ := feed_op h hop lineNum
  rw [feedAll_cons, hfeed]
  by_cases hrows : rows = []
  · refine ⟨opened, ?_, hin.flushesTo ?_⟩
    · rw [hrows]
      rfl
    · rw [← hrows]
      exact hop.emits lineNum
  obtain rfl := hop.body hrows
  obtain ⟨ex', hrest, hin'⟩ := feed_rows hin hop (lineNum + 1) rows
  exact ⟨ex', hrest, hin'.flushesTo (hop.emits lineNum)⟩

/-! ### Hunks that do not overlap -/

theorem normalize_disjoint {owners hs : List ConcreteHunk} {dropped : List ℕ}
    (howners : ∀ o ∈ owners, ∀ h ∈ hs, o.meets h = false)
    (hpair : hs.Pairwise fun a b => a.meets b = false) :
    BlockEdits.normalize owners dropped hs = some dropped := by
  induction hs generalizing owners with
  | nil => rfl
  | cons h hs ih =>
    obtain ⟨hfirst, hrest⟩ := pairwise_cons.mp hpair
    rw [BlockEdits.normalize]
    split
    · exact ih (fun o ho h' hh' => howners o ho h' (mem_cons_of_mem _ hh')) hrest
    have hnone : owners.filter (fun o => o.meets h) = [] := by
      rw [filter_eq_nil_iff]
      intro o ho
      rw [howners o ho h mem_cons_self]
      exact Bool.false_ne_true
    rw [hnone]
    refine ih (fun o ho h' hh' => ?_) hrest
    rcases mem_append.mp ho with ho | ho
    · exact howners o ho h' (mem_cons_of_mem _ hh')
    obtain rfl := mem_singleton.mp ho
    exact hfirst h' hh'

/-- Edits of different hunks have no line in common. -/
def DisjointHunks (edits : List RowEdit) : Prop :=
  ∀ e ∈ edits, ∀ e' ∈ edits, e.lineNum ≠ e'.lineNum →
    ∀ line ∈ e.sourceLines, line ∉ e'.sourceLines

theorem hunkFor_meets (h : DisjointHunks edits) {n m : ℕ} (hne : n ≠ m) :
    (hunkFor edits n).meets (hunkFor edits m) = false := by
  rw [ConcreteHunk.meets, any_eq_false]
  intro line hline
  have hmem : ∀ k, line ∈ (hunkFor edits k).sourceLines →
      ∃ e ∈ edits, e.lineNum = k ∧ line ∈ e.sourceLines := by
    intro k hk
    obtain ⟨e, he, hsource⟩ := mem_flatMap.mp (mem_dedup.mp hk)
    obtain ⟨hedits, hkey⟩ := mem_filter.mp he
    exact ⟨e, hedits, of_decide_eq_true hkey, hsource⟩
  intro hcontains
  obtain ⟨e, he, rfl, hsource⟩ := hmem n hline
  obtain ⟨e', he', rfl, hsource'⟩ := hmem m (contains_iff_mem.mp hcontains)
  exact h e he e' he' hne line hsource hsource'

theorem normalize_hunksOf (h : DisjointHunks edits) :
    BlockEdits.normalize [] [] (hunksOf edits) = some [] := by
  refine normalize_disjoint (fun o ho => nomatch ho) ?_
  rw [hunksOf, pairwise_map]
  have hnodup : ((edits.filter RowEdit.isConcrete).map
      RowEdit.lineNum).reverse.dedup.reverse.Nodup :=
    nodup_reverse.mpr (nodup_dedup _)
  exact hnodup.imp fun hne => hunkFor_meets h hne

theorem finish_ready (h : FlushesTo shapes ex edits) (hdisjoint : DisjointHunks edits) :
    ∃ ex', ex.finish shapes = .ok ex' ∧ ex'.edits = edits ∧ ex'.fileOp = none := by
  obtain ⟨flushed, hflush, hready⟩ := h.flush
  refine ⟨flushed, ?_, hready.edits_eq, hready.fileOp_eq⟩
  simp only [finish, consume_of_no_comments h.comments_eq, hflush, validateFileOp,
    hready.fileOp_eq, normalizeOverlappingRanges, hready.edits_eq, normalize_hunksOf hdisjoint,
    bind, Except.bind]
  rfl

end Executor

end BreadboardTui.Hashline
