import BreadboardTui.Hashline.HunkText
import BreadboardTui.Lib.Blocks

/-!
# Notebooks as text

A notebook is edited as one text. Each cell is a marker line with its type and its index, and
behind it the lines of its source. A line of a source that looks like a marker is written with one
more `%`, however many it has.

* `applyNotebookEditableText`: the notebook after an edit. A cell that names an original cell keeps
  what the text does not show of it; the first cell that names it has it.
-/

namespace BreadboardTui.Notebook

open List Option Bool

open Hashline (Units units isDigitCode decimal)

/-! ### Cells -/

inductive NotebookCellType where
  | code
  | markdown
  | raw
  deriving DecidableEq, Repr

def NotebookCellType.name : NotebookCellType → Units
  | .code => units "code"
  | .markdown => units "markdown"
  | .raw => units "raw"

/-- A property that may be missing. -/
inductive Nullish (α : Type) where
  | undefined
  | null
  | value (a : α)
  deriving DecidableEq, Repr

/-- `??=`. -/
def Nullish.orAssign {α : Type} (p default : Nullish α) : Nullish α :=
  match p with
  | .value a => .value a
  | .undefined | .null => default

inductive CellSource where
  | text (content : Units)
  | lines (parts : List Units)
  deriving DecidableEq, Repr

/-- A cell. Values that are only copied are of a type `J`. -/
structure NotebookCell (J : Type) where
  cellType : NotebookCellType
  source : Option CellSource
  metadata : Option (List (Units × J))
  executionCount : Nullish J
  outputs : Nullish (List J)
  /-- All other properties. -/
  others : List (Units × J)
  deriving DecidableEq, Repr

structure NotebookDocument (J : Type) where
  cells : List (NotebookCell J)
  metadata : List (Units × J)
  /-- All other properties, `nbformat` and `nbformat_minor` among them. -/
  others : List (Units × J)
  deriving DecidableEq, Repr

def sourceToText : Option CellSource → Units
  | none => []
  | some (.text content) => content
  | some (.lines parts) => parts.flatten

/-- The matches of `/[^\n]*\n|[^\n]+$/g`; `line` is the line so far. -/
def splitSourceLoop (line : Units) : Units → List Units
  | [] => if line = [] then [] else [line]
  | code :: content =>
    if code = 10 then (line ++ [code]) :: splitSourceLoop [] content
    else splitSourceLoop (line ++ [code]) content

def splitNotebookSource (content : Units) : List Units :=
  if content = [] then [] else splitSourceLoop [] content

/-! ### Markers -/

/-- ` \[(code|markdown|raw)\](?: cell:(\d+))?$`, with what the groups have matched. -/
def markerTail (text : Units) : Option (NotebookCellType × Option Units) :=
  [NotebookCellType.code, .markdown, .raw].findSome? fun cellType => do
    let rest ← text.dropPrefix? (units " [" ++ cellType.name ++ units "]")
    if rest = [] then some (cellType, none)
    else
      let digits ← rest.dropPrefix? (units " cell:")
      if digits ≠ [] ∧ digits.all isDigitCode then some (cellType, some digits) else none

/-- The number of `%` of a line `# %…% [type] cell:n`, and what stands behind them. -/
def markerLike (line : Units) : Option (ℕ × NotebookCellType × Option Units) := do
  let text ← line.dropPrefix? (units "# ")
  let tail ← markerTail (text.dropWhile (· = 37))
  some ((text.takeWhile (· = 37)).length, tail)

/-- `CELL_MARKER_RE.exec`. -/
def cellMarker (line : Units) : Option (NotebookCellType × Option Units) := do
  let (percents, marker) ← markerLike line
  if percents = 2 then some marker else none

/-- Whether a line looks like a marker with so many `%` at least. -/
def hasPercents (least : ℕ) (line : Units) : Bool :=
  (markerLike line).any fun marker => least ≤ marker.1

/-- `ESCAPABLE_MARKER_RE.test`. -/
def isEscapableMarker (line : Units) : Bool := hasPercents 2 line

/-- `ESCAPED_MARKER_RE.test`. -/
def isEscapedMarker (line : Units) : Bool := hasPercents 3 line

/-- `String.prototype.replace` with a string: the first occurrence is replaced. -/
def replaceFirst (pattern replacement : Units) : Units → Units
  | [] => if pattern = [] then replacement else []
  | code :: text =>
    match (code :: text).dropPrefix? pattern with
    | some rest => replacement ++ rest
    | none => code :: replaceFirst pattern replacement text

/-- The function that `escapeMarkerLikeSourceLines` maps over the lines. -/
def escapeMarkerLikeLine (line : Units) : Units :=
  if isEscapableMarker line then replaceFirst (units "# %") (units "# %%") line else line

def escapeMarkerLikeSourceLines (source : Units) : Units :=
  if ¬ units "# %%" <:+: source then source
  else [10].intercalate ((source.splitOn 10).map escapeMarkerLikeLine)

def unescapeMarkerLikeLine (line : Units) : Units :=
  if isEscapedMarker line then replaceFirst (units "# %%") (units "# %") line else line

/-- A number in a template. -/
def numberText (n : ℕ) : Units := if n = 0 then [48] else decimal n

/-- `Number.parseInt` of decimal digits. -/
def parseDigits (digits : Units) : ℕ := digits.foldl (fun value code => value * 10 + (code - 48)) 0

def parseVirtualCellMarker (line : Units) : Option (NotebookCellType × Option ℕ) := do
  let (cellType, cellIndexText) ← cellMarker line
  some (cellType, cellIndexText.map parseDigits)

/-! ### From a notebook to its text and back -/

def markerLine (cellType : NotebookCellType) (index : ℕ) : Units :=
  units "# %% [" ++ cellType.name ++ units "] cell:" ++ numberText index

/-- The text of one cell. -/
def cellToText {J : Type} (cell : NotebookCell J) (index : ℕ) : Units :=
  let source := escapeMarkerLikeSourceLines (sourceToText cell.source)
  if 0 < source.length then markerLine cell.cellType index ++ 10 :: source
  else markerLine cell.cellType index

def notebookToEditableText {J : Type} (notebook : NotebookDocument J) : Units :=
  [10].intercalate (notebook.cells.mapIdx fun index cell => cellToText cell index)

structure ParsedVirtualCell where
  cellType : NotebookCellType
  cellIndex : Option ℕ
  source : Units
  deriving DecidableEq, Repr

def linesToSourceText (lines : List Units) : Units :=
  if lines = [] then [] else [10].intercalate lines

/-- Where a text is rejected, its first line is not a marker. -/
def invalidText (displayPath : Units) : Units :=
  units "Invalid notebook editable representation for " ++ displayPath ++
    units ": expected first line to be \"# %% [code] cell:0\", \"# %% [markdown] cell:0\"" ++
    units ", or \"# %% [raw] cell:0\"."

/-! ### Escaped lines -/

theorem dropPrefix_append (pattern rest : Units) :
    (pattern ++ rest).dropPrefix? pattern = some rest :=
  dropPrefix?_append_of_beq rest BEq.rfl

theorem dropPrefix_eq_some {text pattern rest : Units} :
    text.dropPrefix? pattern = some rest ↔ text = pattern ++ rest := by
  rw [dropPrefix?_eq_some_iff]
  constructor
  · rintro ⟨front, rfl, hfront⟩
    rw [eq_of_beq hfront]
  rintro rfl
  exact ⟨pattern, rfl, BEq.rfl⟩

theorem replaceFirst_append (pattern replacement rest : Units) :
    replaceFirst pattern replacement (pattern ++ rest) = replacement ++ rest := by
  have hdrop := dropPrefix_append pattern rest
  cases htext : pattern ++ rest with
  | nil =>
    obtain ⟨hpattern, hrest⟩ := append_eq_nil_iff.mp htext
    rw [replaceFirst, if_pos hpattern, hrest, append_nil]
  | cons =>
    rw [htext] at hdrop
    rw [replaceFirst, hdrop]

variable {marker : NotebookCellType × Option Units}

/-- Behind the `%` there is a space. -/
theorem eq_cons_of_markerTail {text : Units}
    (h : markerTail text = some marker) : ∃ rest, text = 32 :: rest := by
  obtain ⟨cellType, -, hsome⟩ := exists_of_findSome?_eq_some h
  simp only [bind_eq_bind, bind_eq_some_iff] at hsome
  obtain ⟨rest, hrest, -⟩ := hsome
  rw [dropPrefix_eq_some] at hrest
  exact ⟨91 :: (cellType.name ++ units "]" ++ rest), by rw [hrest]; simp [units]⟩

variable {line : Units}

variable {percents : ℕ}

theorem markerLike_eq_some : markerLike line = some (percents, marker) ↔
      ∃ tail, line = units "# " ++ (List.replicate percents 37 ++ tail) ∧
        markerTail tail = some marker := by
  simp only [markerLike, bind_eq_bind, bind_eq_some_iff, dropPrefix_eq_some,
    Option.some.injEq, Prod.mk.injEq]
  constructor
  · rintro ⟨text, rfl, marker, htail, rfl, rfl⟩
    refine ⟨text.dropWhile (· = 37), ?_, htail⟩
    have htake : text.takeWhile (· = 37) = List.replicate (text.takeWhile (· = 37)).length 37 :=
      eq_replicate_iff.mpr ⟨rfl, fun code hcode => by
        simpa using mem_takeWhile_imp hcode⟩
    rw [← htake, takeWhile_append_dropWhile]
  rintro ⟨tail, rfl, htail⟩
  obtain ⟨rest, rfl⟩ := eq_cons_of_markerTail htail
  have htake : (List.replicate percents 37 ++ 32 :: rest).takeWhile (· = 37) =
      List.replicate percents 37 := by
    rw [takeWhile_append_of_pos (by simp), takeWhile_cons_of_neg (by simp), append_nil]
  have hdrop : (List.replicate percents 37 ++ 32 :: rest).dropWhile (· = 37) = 32 :: rest := by
    rw [dropWhile_append_of_pos (by simp), dropWhile_cons_of_neg (by simp)]
  refine ⟨_, rfl, marker, by rw [hdrop, htail], ?_, rfl⟩
  rw [htake, length_replicate]

theorem hasPercents_iff {least : ℕ} : hasPercents least line = true ↔
      ∃ percents marker, markerLike line = some (percents, marker) ∧ least ≤ percents := by
  rw [hasPercents, Option.any_eq_true]
  constructor
  · rintro ⟨⟨percents, marker⟩, hlike, hle⟩
    exact ⟨percents, marker, hlike, of_decide_eq_true hle⟩
  rintro ⟨percents, marker, hlike, hle⟩
  exact ⟨(percents, marker), hlike, decide_eq_true hle⟩

variable {tail : Units}

theorem hasPercents_of_markerTail (h : markerTail tail = some marker) (percents least : ℕ) :
    hasPercents least (units "# " ++ (List.replicate percents 37 ++ tail)) =
      decide (least ≤ percents) := by
  rw [hasPercents, markerLike_eq_some.mpr ⟨tail, rfl, h⟩]
  rfl

/-- A line that looks like a marker gets one more `%`. -/
theorem escapeMarkerLikeLine_marker (h : markerTail tail = some marker) (hpercents : 2 ≤ percents) :
    escapeMarkerLikeLine (units "# " ++ (List.replicate percents 37 ++ tail)) =
      units "# " ++ (List.replicate (percents + 1) 37 ++ tail) := by
  obtain ⟨n, rfl⟩ := Nat.exists_eq_add_of_le' (Nat.one_le_of_lt hpercents)
  have hline : units "# " ++ (List.replicate (n + 1) 37 ++ tail) =
      units "# %" ++ (List.replicate n 37 ++ tail) := by
    simp [units, replicate_succ]
  have hescapable := hasPercents_of_markerTail h (n + 1) 2
  rw [decide_eq_true hpercents] at hescapable
  rw [escapeMarkerLikeLine, isEscapableMarker, hescapable, if_pos rfl, hline, replaceFirst_append]
  simp [units, replicate_succ]

/-- An escaped marker loses one `%`. -/
theorem unescapeMarkerLikeLine_marker (h : markerTail tail = some marker)
    (hpercents : 2 ≤ percents) :
    unescapeMarkerLikeLine (units "# " ++ (List.replicate (percents + 1) 37 ++ tail)) =
      units "# " ++ (List.replicate percents 37 ++ tail) := by
  obtain ⟨n, rfl⟩ := Nat.exists_eq_add_of_le' (Nat.one_le_of_lt hpercents)
  have hline : units "# " ++ (List.replicate (n + 1 + 1) 37 ++ tail) =
      units "# %%" ++ (List.replicate n 37 ++ tail) := by
    simp [units, replicate_succ]
  have hescaped := hasPercents_of_markerTail h (n + 1 + 1) 3
  rw [decide_eq_true (by omega)] at hescaped
  rw [unescapeMarkerLikeLine, isEscapedMarker, hescaped, if_pos rfl, hline, replaceFirst_append]
  simp [units, replicate_succ]

/-- Either a line is not escaped, or it looks like a marker. -/
theorem escapable_cases (line : Units) : isEscapableMarker line = false ∨
      ∃ percents tail marker, 2 ≤ percents ∧ markerTail tail = some marker ∧
        line = units "# " ++ (List.replicate percents 37 ++ tail) := by
  by_cases h : isEscapableMarker line = true
  · obtain ⟨percents, marker, hlike, hle⟩ := hasPercents_iff.mp h
    obtain ⟨tail, hline, htail⟩ := markerLike_eq_some.mp hlike
    exact .inr ⟨percents, tail, marker, hle, htail, hline⟩
  · exact .inl (eq_false_of_not_eq_true h)

theorem escapeMarkerLikeLine_of_not (h : isEscapableMarker line = false) :
    escapeMarkerLikeLine line = line := by
  rw [escapeMarkerLikeLine, h]
  exact if_neg Bool.false_ne_true

theorem unescape_escape (line : Units) :
    unescapeMarkerLikeLine (escapeMarkerLikeLine line) = line := by
  rcases escapable_cases line with h | ⟨percents, tail, marker, hle, htail, rfl⟩
  · have hescaped : isEscapedMarker line = false := by
      -- three `%` are two
      refine eq_false_of_not_eq_true fun h3 => ?_
      obtain ⟨percents, marker, hlike, hle⟩ := hasPercents_iff.mp h3
      have h2 : isEscapableMarker line = true :=
        hasPercents_iff.mpr ⟨percents, marker, hlike, by omega⟩
      rw [h] at h2
      cases h2
    rw [escapeMarkerLikeLine_of_not h, unescapeMarkerLikeLine, hescaped]
    exact if_neg Bool.false_ne_true
  · rw [escapeMarkerLikeLine_marker htail hle, unescapeMarkerLikeLine_marker htail hle]

theorem cellMarker_eq_some :
    cellMarker line = some marker ↔ markerLike line = some (2, marker) := by
  rw [cellMarker]
  simp only [bind_eq_bind, bind_eq_some_iff]
  constructor
  · rintro ⟨⟨percents, found⟩, hlike, h⟩
    obtain ⟨rfl, rfl⟩ : percents = 2 ∧ found = marker := by simpa using h
    exact hlike
  intro hlike
  exact ⟨(2, marker), hlike, rfl⟩

theorem cellMarker_escape (line : Units) : cellMarker (escapeMarkerLikeLine line) = none := by
  refine Option.eq_none_iff_forall_ne_some.mpr fun found hfound => ?_
  rw [cellMarker_eq_some] at hfound
  rcases escapable_cases line with h | ⟨percents, tail, marker, hle, htail, rfl⟩
  · rw [escapeMarkerLikeLine_of_not h] at hfound
    have h2 : isEscapableMarker line = true := hasPercents_iff.mpr ⟨2, found, hfound, le_rfl⟩
    rw [h] at h2
    cases h2
  rw [escapeMarkerLikeLine_marker htail hle, markerLike_eq_some.mpr ⟨tail, rfl, htail⟩] at hfound
  injection hfound with hpair
  have hpercents : percents + 1 = 2 := congrArg Prod.fst hpair
  omega

/-- Marker lines are headers, and a line that looks like one is escaped. -/
def cellFormat : BlockFormat Units (NotebookCellType × Option ℕ) where
  header := parseVirtualCellMarker
  escape := escapeMarkerLikeLine
  unescape := unescapeMarkerLikeLine
  header_escape line := by rw [parseVirtualCellMarker, cellMarker_escape]; rfl
  unescape_escape := unescape_escape

/-! ### Parsing and applying -/

def parseNotebookEditableText (text displayPath : Units) :
    Except Units (List ParsedVirtualCell) :=
  match cellFormat.scan [] none (if text = [] then [] else text.splitOn 10) with
  | some blocks => .ok (blocks.map fun block =>
      ⟨block.1.1, block.1.2, linesToSourceText block.2⟩)
  | none => .error (invalidText displayPath)

section Apply

variable {J : Type}

def createNotebookCell (parsed : ParsedVirtualCell) : NotebookCell J where
  cellType := parsed.cellType
  source := some (.lines (splitNotebookSource parsed.source))
  metadata := some []
  executionCount := if parsed.cellType = .code then .null else .undefined
  outputs := if parsed.cellType = .code then .value [] else .undefined
  others := []

/-- A clone of an original cell, with the type and the source of the parsed one. -/
def reattachCell (cell : NotebookCell J) (parsed : ParsedVirtualCell) : NotebookCell J :=
  { cell with
    cellType := parsed.cellType
    source := some (.lines (splitNotebookSource parsed.source))
    executionCount :=
      if parsed.cellType = .code then cell.executionCount.orAssign .null else .undefined
    outputs := if parsed.cellType = .code then cell.outputs.orAssign (.value []) else .undefined }

/-- The cells for parsed cells, where `used` are the `usedOriginalCells`. -/
def applyCells (cells : List (NotebookCell J)) (used : List ℕ) :
    List ParsedVirtualCell → List (NotebookCell J)
  | [] => []
  | parsed :: rest =>
    match parsed.cellIndex with
    | none => createNotebookCell parsed :: applyCells cells used rest
    | some index =>
      if index ∈ used then createNotebookCell parsed :: applyCells cells used rest
      else
        match cells[index]? with
        | none => createNotebookCell parsed :: applyCells cells used rest
        | some cell => reattachCell cell parsed :: applyCells cells (index :: used) rest

def applyNotebookEditableText (notebook : NotebookDocument J) (text displayPath : Units) :
    Except Units (NotebookDocument J) := do
  let parsedCells ← parseNotebookEditableText text displayPath
  .ok { notebook with cells := applyCells notebook.cells [] parsedCells }

end Apply

end BreadboardTui.Notebook
