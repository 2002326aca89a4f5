import Mathlib.Data.List.DropRight
import Mathlib.Tactic

/-!
# The virtual terminal

A terminal prints graphemes into a grid of cells. A wide grapheme takes a cell and the half behind
it. A row that goes on in the next one marks that as wrapped. When the screen has another size,
wrapped rows are put together and cut again.

The modes are those of a new terminal: it wraps, does not insert, scrolls the whole screen, and
shows the normal buffer.
-/

namespace BreadboardTui.Vterm

/-- A cell without its rendition. -/
structure Cell where
  chars : String
  width : ℕ
  deriving DecidableEq, Repr

def blankCell : Cell := ⟨"", 1⟩

/-- What stands behind a wide grapheme. -/
def halfCell : Cell := ⟨"", 0⟩

structure BufferLine where
  cells : List Cell
  isWrapped : Bool
  deriving DecidableEq, Repr

def blankLine (columns : ℕ) : BufferLine := ⟨List.replicate columns blankCell, false⟩

structure BufferState where
  lines : List BufferLine
  baseY : ℕ
  viewportY : ℕ
  cursorX : ℕ
  cursorY : ℕ
  deriving DecidableEq, Repr

def createState (columns rows : ℕ) : BufferState where
  lines := List.replicate rows (blankLine columns)
  baseY := 0
  viewportY := 0
  cursorX := 0
  cursorY := 0

structure Terminal where
  cols : ℕ
  rows : ℕ
  scrollback : ℕ
  normal : BufferState
  pendingWrap : Bool
  deriving DecidableEq, Repr

namespace Terminal

def new (cols rows scrollback : ℕ) : Terminal where
  cols := max 2 cols
  rows := max 1 rows
  scrollback := scrollback
  normal := createState (max 2 cols) (max 1 rows)
  pendingWrap := false

/-! ### Output -/

def scrollUp (t : Terminal) : Terminal :=
  let pushed := t.normal.lines ++ [blankLine t.cols]
  let lines := pushed.drop (pushed.length - (t.rows + t.scrollback))
  let baseY := lines.length - t.rows
  { t with normal := { t.normal with
      lines := lines
      baseY := baseY
      viewportY :=
        if t.normal.viewportY = t.normal.baseY then baseY else min t.normal.viewportY baseY } }

def modifyCurrentLine (t : Terminal) (f : BufferLine → BufferLine) : Terminal :=
  { t with normal := { t.normal with
      lines := t.normal.lines.modify (t.normal.baseY + t.normal.cursorY) f } }

def lineFeed (t : Terminal) (wrapped : Bool) : Terminal :=
  let waiting := { t with pendingWrap := false }
  let moved :=
    if t.normal.cursorY = t.rows - 1 then waiting.scrollUp
    else if t.normal.cursorY < t.rows - 1 then
      { waiting with normal := { t.normal with cursorY := t.normal.cursorY + 1 } }
    else waiting
  if wrapped then moved.modifyCurrentLine ({ · with isWrapped := true }) else moved

def carriageReturn (t : Terminal) : Terminal :=
  { t with normal := { t.normal with cursorX := 0 }, pendingWrap := false }

/-- `#clearWideAt`: the other half of what stands in a column. -/
def clearWideAt (cols column : ℕ) (cells : List Cell) : List Cell :=
  let left :=
    if (cells[column]?.map Cell.width) = some 0 ∧ 0 < column then
      cells.set (column - 1) blankCell
    else cells
  if (left[column]?.map Cell.width) = some 2 ∧ column + 1 < cols then
    left.set (column + 1) blankCell
  else left

/-- `#print` for a grapheme with a width. -/
def print (t : Terminal) (grapheme : String) (graphemeWidth : ℕ) : Terminal :=
  let width := min 2 graphemeWidth
  let ready :=
    if t.pendingWrap || (width = 2 && t.normal.cursorX = t.cols - 1) then
      let fed := t.lineFeed true
      { fed with normal := { fed.normal with cursorX := 0 } }
    else t
  let column := min ready.normal.cursorX (ready.cols - 1)
  let written := ready.modifyCurrentLine fun line =>
    let cells := (clearWideAt ready.cols column line.cells).set column ⟨grapheme, width⟩
    { line with
      cells := if width = 2 ∧ column + 1 < ready.cols then cells.set (column + 1) halfCell
        else cells }
  { written with
    normal := { written.normal with cursorX := column + width }
    pendingWrap := decide (ready.cols ≤ column + width) }

end Terminal

/-! ### Another size -/

/-- `#usedColumns`: up to the last cell that is not blank. -/
def usedColumns (cells : List Cell) : ℕ :=
  (cells.rdropWhile fun cell => cell.chars = "" && cell.width ≠ 0).length

/-- A row with the wrapped rows behind it. -/
def groups : List BufferLine → List (List BufferLine)
  | [] => []
  | [line] => [[line]]
  | line :: next :: rest =>
    if next.isWrapped then
      match groups (next :: rest) with
      | [] => [[line]]
      | group :: others => (line :: group) :: others
    else [line] :: groups (next :: rest)

/-- The cells of a group. A row that goes on or is wrapped has all its columns. -/
def groupCells : List BufferLine → List Cell
  | [line] => if line.isWrapped then line.cells else line.cells.take (usedColumns line.cells)
  | group => group.flatMap BufferLine.cells

/-- The cells that go into a row from a column on, and what is left. -/
def fill (columns target : ℕ) : List Cell → List Cell × List Cell
  | [] => ([], [])
  | cell :: rest =>
    if columns ≤ target then ([], cell :: rest)
    else if cell.width = 0 then fill columns target rest
    else if cell.width = 2 then
      if target = columns - 1 then ([], cell :: rest)
      else
        let filled := fill columns (target + 2) (rest.drop 1)
        (cell :: halfCell :: filled.1, filled.2)
    else
      let filled := fill columns (target + 1) rest
      (cell :: filled.1, filled.2)
termination_by cells => cells.length
decreasing_by
  all_goals simp only [List.length_cons, List.length_drop]
  all_goals omega

/-- The rows of cells. Each takes some, since there are two columns at least. -/
def wrapRows (columns : ℕ) (isWrapped : Bool) (cells : List Cell) : List BufferLine :=
  if cells = [] then []
  else
    let filled := fill columns 0 cells
    if filled.2.length < cells.length then
      ⟨filled.1 ++ List.replicate (columns - filled.1.length) blankCell, isWrapped⟩ ::
        wrapRows columns true filled.2
    else []
termination_by cells.length

def rewrap (columns : ℕ) (cells : List Cell) : List BufferLine :=
  if cells = [] then [blankLine columns] else wrapRows columns false cells

/-- The rows of all groups. -/
def layout (columns : ℕ) (lines : List BufferLine) : List BufferLine :=
  (groups lines).flatMap fun group => rewrap columns (groupCells group)

/-- Where a cursor goes: the row from the first of its group on, and the column. -/
def place (columns offset : ℕ) : ℕ × ℕ :=
  if 0 < offset ∧ offset % columns = 0 then (offset / columns - 1, columns - 1)
  else (offset / columns, offset % columns)

/-- How many cells of a group are in front of a column of a row. -/
def offsetIn (group : List BufferLine) (row column : ℕ) : ℕ :=
  ((group.take row).flatMap BufferLine.cells).length + column

/-- Where the cursor goes, in the rows of all groups from a row on. -/
def placeCursor (columns cursorX : ℕ) : List (List BufferLine) → ℕ → ℕ → ℕ × ℕ
  | [], _, _ => (0, 0)
  | group :: others, row, start =>
    if row < group.length then
      (start + (place columns (offsetIn group row cursorX)).1,
        (place columns (offsetIn group row cursorX)).2)
    else
      placeCursor columns cursorX others (row - group.length)
        (start + (rewrap columns (groupCells group)).length)

def isBlankRow (line : BufferLine) : Bool := !line.isWrapped && usedColumns line.cells = 0

/-- Blank rows at the end go, unless the cursor is there or the screen needs them. -/
def popBlank (rows cursor : ℕ) (lines : List BufferLine) : List BufferLine :=
  if rows < lines.length ∧ cursor < lines.length - 1 ∧ (lines.getLast?.any isBlankRow) then
    popBlank rows cursor lines.dropLast
  else lines
termination_by lines.length
decreasing_by
  rw [List.length_dropLast]
  omega

/-- All rows at another size, before there are too many. -/
def fullLayout (b : BufferState) (columns rows : ℕ) : List BufferLine :=
  let popped := popBlank rows
    (placeCursor columns b.cursorX (groups b.lines) (b.baseY + b.cursorY) 0).1
    (layout columns b.lines)
  popped ++ List.replicate (rows - popped.length) (blankLine columns)

/-- `#reflow` of the normal buffer. -/
def reflow (scrollback : ℕ) (b : BufferState) (columns rows : ℕ) : BufferState :=
  let cursor := placeCursor columns b.cursorX (groups b.lines) (b.baseY + b.cursorY) 0
  let full := fullLayout b columns rows
  let removed := full.length - (rows + scrollback)
  let lines := full.drop removed
  let baseY := lines.length - rows
  { lines := lines
    baseY := baseY
    viewportY := baseY
    cursorX := cursor.2
    cursorY := min (rows - 1) (cursor.1 - removed - baseY) }

namespace Terminal

def resize (t : Terminal) (columns rows : ℕ) : Terminal :=
  let nextColumns := max 2 columns
  let nextRows := max 1 rows
  if nextColumns = t.cols ∧ nextRows = t.rows then t
  else
    let normal := reflow t.scrollback t.normal nextColumns nextRows
    { t with
      cols := nextColumns
      rows := nextRows
      normal := normal
      pendingWrap := decide (nextColumns ≤ normal.cursorX) }

/-- What is written. A grapheme is not empty, and is single-width or wide. -/
inductive Output where
  | text (grapheme : String) (wide : Bool)
  | lineFeed
  | carriageReturn
  deriving DecidableEq, Repr

def write (t : Terminal) : Output → Terminal
  | .text grapheme wide => t.print grapheme (if wide then 2 else 1)
  | .lineFeed => t.lineFeed false
  | .carriageReturn => t.carriageReturn

def run (t : Terminal) (outputs : List Output) : Terminal := outputs.foldl write t

end Terminal

end BreadboardTui.Vterm
