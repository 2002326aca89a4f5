import BreadboardTui.Edit.Notebook
import BreadboardTui.Js.Collections

/-!
# The numbered diff of an edit

An edit is shown as the lines that changed, with a few lines around them. An added line has its
number in the new text; every other row has its number in the old text. Brackets that open or close
around the shown lines are put in afterwards, and rows without text stand where lines were left out.

The line diff and the search for the brackets are parameters.

* `buildCompactDiffPreview`: the lines of the diff that are in the new text, with their numbers
  there.
-/

namespace BreadboardTui.NumberedDiff

open Hashline (Units units isDigitCode isTrimmedCode)
open Notebook (numberText parseDigits)

/-! ### Rows -/

inductive RowKind where
  | added
  | removed
  | context
  deriving DecidableEq, Repr

def RowKind.code : RowKind → ℕ
  | .added => 43
  | .removed => 45
  | .context => 32

def kindOfCode (code : ℕ) : Option RowKind :=
  if code = 43 then some .added
  else if code = 45 then some .removed
  else if code = 32 then some .context
  else none

/-- `ParsedNumberedDiffRow` -/
structure DiffRow where
  kind : RowKind
  lineNumber : ℕ
  content : Units
  deriving DecidableEq, Repr

/-- A whole number as it is printed. -/
def integerText (n : ℤ) : Units :=
  if n < 0 then 45 :: numberText n.natAbs else numberText n.natAbs

def formatNumberedDiffLine (kind : RowKind) (lineNum : ℤ) (content : Units) : Units :=
  kind.code :: (integerText lineNum ++ 124 :: content)

def parseNumberedDiffRow : Units → Option DiffRow
  | [] => none
  | first :: rest =>
    match kindOfCode first, rest.dropWhile isDigitCode with
    | some kind, 124 :: content =>
      if rest.takeWhile isDigitCode = [] then none
      else some ⟨kind, parseDigits (rest.takeWhile isDigitCode), content⟩
    | _, _ => none

def isDiffChangeRow (row : Units) : Bool := row.head? == some 43 || row.head? == some 45

def parseSourceRowLineNumber (row : Units) : Option ℕ :=
  match parseNumberedDiffRow row with
  | some parsed => if parsed.kind = .added then none else some parsed.lineNumber
  | none => none

/-- The loop of `normalizeDiffGapRows` over the rows that are left. -/
def normalizeDiffGapRows (kept : List Units) : List Units → List Units
  | [] => kept
  | row :: rest =>
    if row ≠ [] then normalizeDiffGapRows (kept ++ [row]) rest
    else if kept = [] ∨ kept.getLast? = some [] then normalizeDiffGapRows kept rest
    else
      match kept.reverse.findSome? parseSourceRowLineNumber,
          rest.findSome? parseSourceRowLineNumber with
      | some before, some after =>
        if after ≤ before + 1 then normalizeDiffGapRows kept rest
        else normalizeDiffGapRows (kept ++ [row]) rest
      | _, _ => normalizeDiffGapRows kept rest

/-! ### Rows for brackets -/

def adjustedContextInsertIndex (rows : List Units) (index : ℕ) : ℕ :=
  let start := index - ((rows.take index).reverse.takeWhile isDiffChangeRow).length
  let stop := index + ((rows.drop index).takeWhile isDiffChangeRow).length
  if start < index ∧ index < stop then stop else index

/-- Where a row is put in, and the lines of the old text around it. -/
structure InsertPlace where
  insertIndex : ℕ
  previousSourceLine : Option ℕ
  nextSourceLine : Option ℕ
  deriving DecidableEq, Repr

/-- The loop over the rows, from the row at `index` on. -/
def findInsertPlace (lineNumber : ℤ) (index : ℕ) (previous : Option ℕ) : List Units → InsertPlace
  | [] => ⟨index, previous, none⟩
  | row :: rows =>
    match parseNumberedDiffRow row with
    | none => findInsertPlace lineNumber (index + 1) previous rows
    | some parsed =>
      if parsed.kind = .added then findInsertPlace lineNumber (index + 1) previous rows
      else if (parsed.lineNumber : ℤ) < lineNumber then
        findInsertPlace lineNumber (index + 1) (some parsed.lineNumber) rows
      else ⟨index, previous, some parsed.lineNumber⟩

/-- One turn of the loop of `insertBracketContextRows`. -/
def insertBracketContextRow (rows seenRows : List Units) (entry : ℤ × Units) :
    List Units × List Units :=
  let row := formatNumberedDiffLine .context entry.1 entry.2
  if seenRows.contains row then (rows, seenRows)
  else
    let place := findInsertPlace entry.1 0 none rows
    let gapBefore :=
      if place.previousSourceLine.any fun line => (line : ℤ) + 1 < entry.1 then [[]] else []
    let gapAfter :=
      if place.nextSourceLine.any fun line => entry.1 + 1 < (line : ℤ) then [[]] else []
    let index := adjustedContextInsertIndex rows place.insertIndex
    (rows.take index ++ (gapBefore ++ row :: gapAfter) ++ rows.drop index, row :: seenRows)

def insertBracketContextRows (rows : List Units) (contextLines : JsMap ℤ Units)
    (seenRows : List Units) : List Units :=
  ((contextLines.insertionSort fun a b => a.1 ≤ b.1).foldl
    (fun state entry => insertBracketContextRow state.1 state.2 entry) (rows, seenRows)).1

/-- A change, where it is in the new text. -/
structure Change where
  newPos : ℤ
  delta : ℤ
  deriving DecidableEq, Repr

/-- What the rows show of the two texts. -/
structure Visible where
  old : List ℤ := []
  new : List ℤ := []
  changes : List Change := []
  offset : ℤ := 0
  deriving DecidableEq, Repr

def Visible.step (v : Visible) (row : Units) : Visible :=
  match parseNumberedDiffRow row with
  | none => v
  | some ⟨kind, lineNumber, _⟩ =>
    match kind with
    | .removed => { v with
        old := v.old ++ [(lineNumber : ℤ)]
        changes := v.changes ++ [⟨lineNumber + v.offset, -1⟩]
        offset := v.offset - 1 }
    | .added => { v with
        new := v.new ++ [(lineNumber : ℤ)]
        changes := v.changes ++ [⟨lineNumber, 1⟩]
        offset := v.offset + 1 }
    | .context => { v with
        old := v.old ++ [(lineNumber : ℤ)]
        new := v.new ++ [lineNumber + v.offset] }

def toOldLineNumber (changes : List Change) (newLineNumber : ℤ) : ℤ :=
  newLineNumber -
    ((changes.filter fun change => change.newPos ≤ newLineNumber).map Change.delta).sum

/-- `findBlockContextLines` of a file's lines, for the lines that are visible. -/
abbrev BlockContextFinder := List Units → List ℤ → JsMap ℤ Units

def bracketContextRows (finder : BlockContextFinder) (v : Visible)
    (oldLines newLines : List Units) : JsMap ℤ Units :=
  (finder newLines v.new).foldl (fun contextRows entry =>
    let oldLineNumber := toOldLineNumber v.changes entry.1
    if JsMap.has contextRows oldLineNumber then contextRows
    else JsMap.set oldLineNumber entry.2 contextRows) (finder oldLines v.old)

def addMatchingBracketContextRows (finder : BlockContextFinder) (rows oldLines newLines : List Units) :
    List Units :=
  normalizeDiffGapRows []
    (insertBracketContextRows rows
      (bracketContextRows finder (rows.foldl Visible.step {}) oldLines newLines) rows)

/-! ### The diff -/

/-- A part of a line diff. -/
structure DiffPart where
  value : Units
  added : Bool
  removed : Bool
  deriving DecidableEq, Repr

def DiffPart.isChange (part : DiffPart) : Bool := part.added || part.removed

/-- The lines without the empty text that stands behind a final newline. -/
def fileLines (raw : List Units) : List Units :=
  if raw.getLast? = some [] then raw.dropLast else raw

def textLines (text : Units) : List Units := fileLines (text.splitOn 10)

def numberedRows (kind : RowKind) (lineNum : ℕ) : List Units → List Units
  | [] => []
  | line :: lines => formatNumberedDiffLine kind lineNum line :: numberedRows kind (lineNum + 1) lines

/-- The lines of an unchanged part that are shown. -/
structure ContextWindow where
  leadingSkip : ℕ
  middleSkip : ℕ
  trailingSkip : ℕ
  linesToShow : List Units
  deriving DecidableEq, Repr

def contextWindow (contextLimit : ℕ) (lastWasChange nextPartIsChange : Bool) (raw : List Units) :
    ContextWindow :=
  if lastWasChange && nextPartIsChange then
    if contextLimit * 2 < raw.length then
      let leadingContext := raw.take contextLimit
      let trailingContext := raw.drop (raw.length - contextLimit)
      ⟨0, raw.length - leadingContext.length - trailingContext.length, 0,
        leadingContext ++ trailingContext⟩
    else ⟨0, 0, 0, raw⟩
  else if nextPartIsChange then
    ⟨raw.length - contextLimit, 0, 0, raw.drop (raw.length - contextLimit)⟩
  else ⟨0, 0, raw.length - contextLimit, raw.take contextLimit⟩

structure DiffState where
  output : List Units := []
  oldLineNum : ℕ := 1
  newLineNum : ℕ := 1
  lastWasChange : Bool := false
  firstChangedLine : Option ℕ := none
  deriving DecidableEq, Repr

namespace DiffState

variable (st : DiffState)

def changePart (part : DiffPart) : DiffState :=
  let raw := textLines part.value
  let firstChangedLine := some (st.firstChangedLine.getD st.newLineNum)
  if part.added then
    { st with
      output := st.output ++ numberedRows .added st.newLineNum raw
      newLineNum := st.newLineNum + raw.length
      lastWasChange := true, firstChangedLine }
  else
    { st with
      output := st.output ++ numberedRows .removed st.oldLineNum raw
      oldLineNum := st.oldLineNum + raw.length
      lastWasChange := true, firstChangedLine }

/-- The rows that a window shows of the lines from `lineNum` on. -/
def windowRows (contextLimit lineNum : ℕ) (window : ContextWindow) : List Units :=
  let firstChunkLength :=
    if 0 < window.middleSkip then contextLimit else window.linesToShow.length
  let firstChunk := window.linesToShow.take firstChunkLength
  numberedRows .context (lineNum + window.leadingSkip) firstChunk ++
    if 0 < window.middleSkip then
      numberedRows .context (lineNum + window.leadingSkip + firstChunk.length + window.middleSkip)
        (window.linesToShow.drop firstChunkLength)
    else []

def contextPart (contextLimit : ℕ) (nextPartIsChange : Bool) (part : DiffPart) : DiffState :=
  let raw := textLines part.value
  if st.lastWasChange || nextPartIsChange then
    let window := contextWindow contextLimit st.lastWasChange nextPartIsChange raw
    let advance :=
      window.leadingSkip + window.linesToShow.length + window.middleSkip + window.trailingSkip
    { st with
      output := st.output ++ windowRows contextLimit st.oldLineNum window
      oldLineNum := st.oldLineNum + advance
      newLineNum := st.newLineNum + advance
      lastWasChange := false }
  else
    { st with
      oldLineNum := st.oldLineNum + raw.length
      newLineNum := st.newLineNum + raw.length
      lastWasChange := false }

/-- The loop over the parts. -/
def run (contextLimit : ℕ) : DiffState → List DiffPart → DiffState
  | st, [] => st
  | st, part :: parts =>
    run contextLimit
      (if part.isChange then st.changePart part
      else st.contextPart contextLimit (parts.head?.any DiffPart.isChange) part) parts

end DiffState

structure DiffResult where
  diff : Units
  firstChangedLine : Option ℕ
  deriving DecidableEq, Repr

/-- `diffLines` of the old and the new text. -/
abbrev LineDiff := Units → Units → List DiffPart

def generateDiffString (diffLines : LineDiff) (finder : BlockContextFinder)
    (oldContent newContent : Units) (contextLines : ℤ) : DiffResult :=
  let st := DiffState.run contextLines.toNat {} (diffLines oldContent newContent)
  ⟨[10].intercalate (addMatchingBracketContextRows finder st.output (oldContent.splitOn 10)
    (newContent.splitOn 10)), st.firstChangedLine⟩

/-! ### The preview -/

/-- `…` -/
def elisionMarker : Units := [0x2026]

def isPreviewSeparator (line : Units) : Bool := line = elisionMarker || line = []

def appendPreviewLine (output : List Units) (line : Units) : List Units :=
  let normalized :=
    if [units "...", elisionMarker, 43 :: elisionMarker].contains line then elisionMarker else line
  if isPreviewSeparator normalized && (output.getLast?.all isPreviewSeparator) then output
  else output ++ [normalized]

/-- `Number.parseInt(text, 10)`; `none` where it is not a number. -/
def parseInt (text : Units) : Option ℤ :=
  let text := text.dropWhile isTrimmedCode
  let digits := (if text.head? = some 45 ∨ text.head? = some 43 then text.tail else text).takeWhile
    isDigitCode
  if digits = [] then none
  else if text.head? = some 45 then some (-(parseDigits digits : ℤ))
  else some (parseDigits digits)

structure ParsedDiffLine where
  kind : RowKind
  lineNumber : ℤ
  content : Units
  deriving DecidableEq, Repr

def parseNumberedDiffLine : Units → Option ParsedDiffLine
  | [] => none
  | first :: body =>
    match kindOfCode first, body.dropWhile (· ≠ 124) with
    | some kind, _ :: content =>
      (parseInt (body.takeWhile (· ≠ 124))).map fun lineNumber => ⟨kind, lineNumber, content⟩
    | _, _ => none

def appendAddedRun (output run : List Units) (edgeLines : ℕ) : List Units :=
  if run.length ≤ edgeLines * 2 + 1 then run.foldl appendPreviewLine output
  else
    (run.drop (run.length - edgeLines)).foldl appendPreviewLine
      (appendPreviewLine ((run.take edgeLines).foldl appendPreviewLine output) elisionMarker)

structure CompactDiffOptions where
  maxAddedRunContext : Option ℤ := none
  maxUnchangedRun : Option ℤ := none
  deriving DecidableEq, Repr

def normalizeAddedRunContext (value : Option ℤ) : ℕ :=
  match value with
  | none => 2
  | some value => (max 1 value).toNat

structure PreviewState where
  addedLines : ℕ := 0
  removedLines : ℕ := 0
  formatted : List Units := []
  addedRun : List Units := []
  deriving DecidableEq, Repr

namespace PreviewState

variable (st : PreviewState)

def flushAddedRun (addedRunContext : ℕ) : PreviewState :=
  { st with formatted := appendAddedRun st.formatted st.addedRun addedRunContext, addedRun := [] }

/-- A line of the preview. -/
def numberedLine (lineNumber : ℤ) (content : Units) : Units :=
  integerText lineNumber ++ 58 :: content

/-- The body of the loop over the lines of the diff. -/
def step (addedRunContext : ℕ) (line : Units) : PreviewState :=
  match parseNumberedDiffLine line with
  | none =>
    let st := st.flushAddedRun addedRunContext
    { st with formatted := appendPreviewLine st.formatted line }
  | some ⟨kind, lineNumber, content⟩ =>
    match kind with
    | .added => { st with
        addedLines := st.addedLines + 1
        addedRun := st.addedRun ++ [numberedLine lineNumber content] }
    | .removed =>
      let st := st.flushAddedRun addedRunContext
      { st with removedLines := st.removedLines + 1 }
    | .context =>
      let st := st.flushAddedRun addedRunContext
      let newLineNumber := lineNumber + st.addedLines - st.removedLines
      { st with
        formatted := appendPreviewLine st.formatted (numberedLine newLineNumber content) }

end PreviewState

structure CompactDiffPreview where
  preview : Units
  addedLines : ℕ
  removedLines : ℕ
  deriving DecidableEq, Repr

def buildCompactDiffPreview (diff : Units) (options : CompactDiffOptions) : CompactDiffPreview :=
  let lines := if diff = [] then [] else diff.splitOn 10
  let addedRunContext :=
    normalizeAddedRunContext (options.maxAddedRunContext <|> options.maxUnchangedRun)
  let st := (lines.foldl (fun st line => PreviewState.step st addedRunContext line) {}).flushAddedRun
    addedRunContext
  ⟨[10].intercalate (st.formatted.rdropWhile isPreviewSeparator), st.addedLines, st.removedLines⟩

/-! ### The parameters -/

/-- The lines of a text with the newlines at their ends. -/
def lineTokens : Units → List Units
  | [] => []
  | code :: text =>
    if code = 10 then [10] :: lineTokens text
    else
      match lineTokens text with
      | [] => [[code]]
      | token :: tokens => (code :: token) :: tokens

/-- The parts are runs of lines that make up the two texts. -/
structure ValidScript (parts : List DiffPart) (old new : Units) : Prop where
  value_ne_nil : ∀ part ∈ parts, part.value ≠ []
  not_both : ∀ part ∈ parts, part.added = true → part.removed = false
  old : (parts.filter fun part => !part.added).flatMap (fun part => lineTokens part.value) =
    lineTokens old
  new : (parts.filter fun part => !part.removed).flatMap (fun part => lineTokens part.value) =
    lineTokens new

/-- The finder gives lines of the file that are not visible, with their text. -/
def IsBlockContext (finder : BlockContextFinder) : Prop :=
  ∀ raw visible n text, (n, text) ∈ finder raw visible →
    n ∉ visible ∧ ∃ index : ℕ, n = (index : ℤ) + 1 ∧ (fileLines raw)[index]? = some text

end BreadboardTui.NumberedDiff
