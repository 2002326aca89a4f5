import BreadboardTui.Edit.Notebook

/-!
# A notebook survives its text

The text of a notebook is the text of its cells as blocks: `notebookToEditableText_eq`. So it is
parsed into the cells it was made of, each with its own index, and every cell finds its original.
-/

namespace BreadboardTui.Notebook

open List

open Hashline (Units units isDigitCode decimal decimal_ge foldl_digits)

variable {J : Type}

/-! ### Lines of a source -/

variable {line : Units}

theorem notMem_escape (h : 10 ∉ line) : 10 ∉ escapeMarkerLikeLine line := by
  rcases escapable_cases line with hnot | ⟨percents, tail, marker, hle, htail, rfl⟩
  · rwa [escapeMarkerLikeLine_of_not hnot]
  rw [escapeMarkerLikeLine_marker htail hle]
  simp only [mem_append, mem_replicate, not_or] at h ⊢
  exact ⟨h.1, fun hpercent => by omega, h.2.2⟩

theorem units_prefix_of_escapable (h : isEscapableMarker line = true) : units "# %%" <+: line := by
  rcases escapable_cases line with hnot | ⟨percents, tail, marker, hle, htail, rfl⟩
  · rw [h] at hnot
    cases hnot
  obtain ⟨n, rfl⟩ := Nat.exists_eq_add_of_le' hle
  exact ⟨List.replicate n 37 ++ tail, by simp [units, replicate_succ]⟩

variable (source : Units)

/-- The early return changes nothing: a source without `# %%` has no line to escape. -/
theorem escapeMarkerLikeSourceLines_eq : escapeMarkerLikeSourceLines source =
      [10].intercalate ((source.splitOn 10).map escapeMarkerLikeLine) := by
  rw [escapeMarkerLikeSourceLines]
  split
  · next h =>
    have hid : (source.splitOn 10).map escapeMarkerLikeLine = source.splitOn 10 := by
      refine (map_congr_left fun line hline => ?_).trans (map_id _)
      refine escapeMarkerLikeLine_of_not ?_
      refine Bool.eq_false_of_not_eq_true fun hescapable => h ?_
      have hinfix := infix_intercalate 10 hline
      rw [intercalate_splitOn] at hinfix
      exact (units_prefix_of_escapable hescapable).isInfix.trans hinfix
    rw [hid, intercalate_splitOn]
  · rfl

/-- The lines of a source, of which an empty one has none. -/
def sourceLines (source : Units) : List Units := if source = [] then [] else source.splitOn 10

theorem linesToSourceText_sourceLines : linesToSourceText (sourceLines source) = source := by
  rw [sourceLines]
  split
  · next h => rw [h]; rfl
  · rw [linesToSourceText, if_neg (splitOn_ne_nil 10 source), intercalate_splitOn]

theorem escapeMarkerLikeSourceLines_eq_nil {source : Units} :
    escapeMarkerLikeSourceLines source = [] ↔ source = [] := by
  constructor
  · intro h
    rw [escapeMarkerLikeSourceLines_eq] at h
    have hlines : ∀ line ∈ (source.splitOn 10).map escapeMarkerLikeLine, 10 ∉ line := by
      intro line hline
      obtain ⟨line, hmem, rfl⟩ := mem_map.mp hline
      exact notMem_escape (notMem_of_mem_splitOn hmem)
    have hsplit := splitOn_intercalate 10 hlines (by simp)
    rw [h, splitOn_nil] at hsplit
    -- the only line is empty when it is escaped, and so before
    obtain ⟨line, hline, hempty⟩ := map_eq_singleton_iff.mp hsplit.symm
    have hsource : [10].intercalate (source.splitOn 10) = source := intercalate_splitOn 10
    rw [hline, intercalate_singleton] at hsource
    rw [← hsource, ← unescape_escape line, hempty]
    decide
  rintro rfl
  rw [escapeMarkerLikeSourceLines, if_pos (by decide)]

/-! ### Marker lines -/

theorem numberText_ne_nil (n : ℕ) : numberText n ≠ [] := by
  rw [numberText]
  split
  · exact cons_ne_nil _ _
  next h =>
  obtain ⟨code, rest, heq, -⟩ := Hashline.decimal_cons (Nat.one_le_iff_ne_zero.mpr h)
  rw [heq]
  exact cons_ne_nil _ _

theorem isDigitCode_of_mem_numberText {n code : ℕ} (h : code ∈ numberText n) :
    isDigitCode code = true := by
  rw [numberText] at h
  split at h
  · rw [mem_singleton.mp h]
    rfl
  obtain ⟨digit, hdigit, rfl⟩ := mem_map.mp h
  have hlt := Nat.digits_lt_base (by omega : 1 < 10) (mem_reverse.mp hdigit)
  exact decide_eq_true (by omega)

theorem parseDigits_numberText (n : ℕ) : parseDigits (numberText n) = n := by
  rw [numberText]
  split
  · next h => rw [h]; rfl
  rw [parseDigits, decimal, foldl_map]
  calc
    (Nat.digits 10 n).reverse.foldl (fun value digit => value * 10 + (48 + digit - 48)) 0 =
        (Nat.digits 10 n).reverse.foldl (fun value digit => value * 10 + digit) 0 := by
      simp
    _ = n := foldl_digits n

variable (cellType : NotebookCellType)

theorem parseVirtualCellMarker_markerLine (index : ℕ) :
    parseVirtualCellMarker (markerLine cellType index) = some (cellType, some index) := by
  have htail : markerTail (units " [" ++ cellType.name ++ units "] cell:" ++ numberText index) =
      some (cellType, some (numberText index)) := by
    have hdigits : ∀ code ∈ numberText index, isDigitCode code = true :=
      fun code => isDigitCode_of_mem_numberText
    have hne := numberText_ne_nil index
    cases cellType <;>
      simp [markerTail, NotebookCellType.name, units, List.findSome?, List.dropPrefix?, hne,
        if_pos hdigits]
  have hlike : markerLike (markerLine cellType index) =
      some (2, cellType, some (numberText index)) :=
    markerLike_eq_some.mpr ⟨_, by simp [markerLine, units], htail⟩
  rw [parseVirtualCellMarker, cellMarker_eq_some.mpr hlike]
  simp [parseDigits_numberText]

theorem notMem_markerLine (index : ℕ) : 10 ∉ markerLine cellType index := by
  have hnumber : 10 ∉ numberText index := fun h => by
    have hdigit := isDigitCode_of_mem_numberText h
    cases hdigit
  cases cellType <;> simp [markerLine, NotebookCellType.name, units, hnumber]

/-! ### The text of a notebook -/

theorem map_mapIdx {α β γ : Type} (f : ℕ → α → β) (g : β → γ) (l : List α) :
    (l.mapIdx f).map g = l.mapIdx fun index a => g (f index a) :=
  ext_getElem (by simp) fun index h1 h2 => by simp

/-- The cells of a notebook as blocks, each with its index. -/
def cellBlocks (cells : List (NotebookCell J)) : List (Block Units (NotebookCellType × Option ℕ)) :=
  cells.mapIdx fun index cell =>
    ((cell.cellType, some index), sourceLines (sourceToText cell.source))

/-- The marker line of a block. -/
def headerLine (header : NotebookCellType × Option ℕ) : Units :=
  markerLine header.1 (header.2.getD 0)

theorem cellToText_eq (cell : NotebookCell J) (index : ℕ) : cellToText cell index =
      [10].intercalate (markerLine cell.cellType index ::
        (sourceLines (sourceToText cell.source)).map escapeMarkerLikeLine) := by
  rw [cellToText, sourceLines]
  by_cases h : sourceToText cell.source = []
  · have hescaped := escapeMarkerLikeSourceLines_eq_nil.mpr h
    rw [if_pos h, hescaped, map_nil, intercalate_singleton]
    rfl
  have hescaped := mt escapeMarkerLikeSourceLines_eq_nil.mp h
  rw [if_neg h, if_pos (length_pos_iff.mpr hescaped), escapeMarkerLikeSourceLines_eq,
    intercalate_cons_of_ne_nil (by simp), append_assoc,
    singleton_append]

theorem notebookToEditableText_eq (notebook : NotebookDocument J) :
    notebookToEditableText notebook =
      [10].intercalate (cellFormat.lines headerLine (cellBlocks notebook.cells)) := by
  rw [notebookToEditableText, BlockFormat.lines,
    ← intercalate_flatMap _ _ fun block _ => cons_ne_nil _ _, cellBlocks, map_mapIdx]
  congr 1
  refine mapIdx_eq_mapIdx_iff.mpr fun index hindex => ?_
  exact cellToText_eq _ _

variable {cells : List (NotebookCell J)}

theorem notMem_lines (h : line ∈ cellFormat.lines headerLine (cellBlocks cells)) : 10 ∉ line := by
  obtain ⟨block, hblock, hline⟩ := mem_flatMap.mp h
  rcases mem_cons.mp hline with rfl | hline
  · exact notMem_markerLine _ _
  obtain ⟨body, hbody, rfl⟩ := mem_map.mp hline
  obtain ⟨index, hindex, rfl⟩ := mem_mapIdx.mp hblock
  rw [sourceLines] at hbody
  split at hbody
  · cases hbody
  · exact notMem_escape (notMem_of_mem_splitOn hbody)

theorem splitOn_editableText (notebook : NotebookDocument J) :
    (if notebookToEditableText notebook = [] then []
      else (notebookToEditableText notebook).splitOn 10) =
      cellFormat.lines headerLine (cellBlocks notebook.cells) := by
  have hnewline : ∀ line ∈ cellFormat.lines headerLine (cellBlocks notebook.cells), 10 ∉ line :=
    fun line hline => notMem_lines hline
  rw [notebookToEditableText_eq]
  cases hcells : notebook.cells with
  | nil => rfl
  | cons cell cells =>
    rw [hcells] at hnewline
    obtain ⟨lines, hlines⟩ : ∃ lines, cellFormat.lines headerLine (cellBlocks (cell :: cells)) =
        markerLine cell.cellType 0 :: lines := by
      rw [cellBlocks, mapIdx_cons, BlockFormat.lines, flatMap_cons]
      exact ⟨_, rfl⟩
    rw [hlines] at hnewline ⊢
    rw [splitOn_intercalate 10 hnewline (cons_ne_nil _ _), if_neg]
    -- the marker of the first cell is in the text
    intro hempty
    have hinfix : markerLine cell.cellType 0 <:+:
        [10].intercalate (markerLine cell.cellType 0 :: lines) :=
      infix_intercalate 10 mem_cons_self
    rw [hempty, infix_nil] at hinfix
    simp [markerLine, units] at hinfix

/-- The cells that the text of a notebook names. -/
def parsedCells (cells : List (NotebookCell J)) : List ParsedVirtualCell :=
  cells.mapIdx fun index cell => ⟨cell.cellType, some index, sourceToText cell.source⟩

theorem parse_editableText (notebook : NotebookDocument J) (displayPath : Units) :
    parseNotebookEditableText (notebookToEditableText notebook) displayPath =
      .ok (parsedCells notebook.cells) := by
  have hprint : ∀ block ∈ cellBlocks notebook.cells,
      cellFormat.header (headerLine block.1) = some block.1 := by
    intro block hblock
    obtain ⟨index, hindex, rfl⟩ := mem_mapIdx.mp hblock
    exact parseVirtualCellMarker_markerLine _ _
  rw [parseNotebookEditableText, splitOn_editableText,
    cellFormat.scan_lines _ [] none hprint, BlockFormat.flush, nil_append]
  simp only [cellBlocks, map_mapIdx, parsedCells]
  congr 1
  refine mapIdx_eq_mapIdx_iff.mpr fun index hindex => ?_
  simp [linesToSourceText_sourceLines]

/-! ### Attaching the parsed cells -/

theorem flatten_splitSourceLoop (line content : Units) :
    (splitSourceLoop line content).flatten = line ++ content := by
  induction content generalizing line with
  | nil =>
    rw [splitSourceLoop]
    split
    · next h => rw [h]; rfl
    · simp
  | cons code content ih =>
    rw [splitSourceLoop]
    split
    · rw [flatten_cons, ih, nil_append, append_assoc, singleton_append]
    · rw [ih, append_assoc, singleton_append]

theorem sourceToText_split :
    sourceToText (some (.lines (splitNotebookSource source))) = source := by
  rw [sourceToText, splitNotebookSource]
  split
  · next h => rw [h]; rfl
  · rw [flatten_splitSourceLoop, nil_append]

/-- The original cell that a parsed cell gets, behind those in `earlier`. -/
def originCell (cells : List (NotebookCell J)) (earlier : List ParsedVirtualCell)
    (parsed : ParsedVirtualCell) : Option (NotebookCell J) :=
  parsed.cellIndex.bind fun index =>
    if earlier.any fun p => p.cellIndex = some index then none else cells[index]?

/-- The new cell for a parsed one, with the original cell that it got. -/
def newCell (parsed : ParsedVirtualCell) : Option (NotebookCell J) → NotebookCell J
  | some cell => reattachCell cell parsed
  | none => createNotebookCell parsed

theorem newCell_cellType (parsed : ParsedVirtualCell) (origin : Option (NotebookCell J)) :
    (newCell parsed origin).cellType = parsed.cellType := by
  cases origin <;> rfl

theorem newCell_source (parsed : ParsedVirtualCell) (origin : Option (NotebookCell J)) :
    sourceToText (newCell parsed origin).source = parsed.source := by
  cases origin <;> exact sourceToText_split parsed.source

/-- The used cells are those that are named by an earlier cell. -/
def UsedBy (cells : List (NotebookCell J)) (used : List ℕ) (earlier : List ParsedVirtualCell) :
    Prop :=
  ∀ index < cells.length, index ∈ used ↔ ∃ p ∈ earlier, p.cellIndex = some index

variable {earlier : List ParsedVirtualCell} {used : List ℕ}

theorem UsedBy.same (hused : UsedBy cells used earlier) {parsed : ParsedVirtualCell}
    (h : ∀ index < cells.length, parsed.cellIndex = some index → index ∈ used) :
    UsedBy cells used (earlier ++ [parsed]) := by
  intro index hindex
  rw [hused index hindex]
  constructor
  · rintro ⟨p, hp, heq⟩
    exact ⟨p, mem_append_left _ hp, heq⟩
  rintro ⟨p, hp, heq⟩
  rcases mem_append.mp hp with hp | hp
  · exact ⟨p, hp, heq⟩
  rw [mem_singleton.mp hp] at heq
  exact (hused index hindex).mp (h index hindex heq)

theorem UsedBy.cons {cells : List (NotebookCell J)} {used : List ℕ}
    {earlier : List ParsedVirtualCell} (hused : UsedBy cells used earlier)
    {parsed : ParsedVirtualCell} {index : ℕ} (h : parsed.cellIndex = some index) :
    UsedBy cells (index :: used) (earlier ++ [parsed]) := by
  intro other hother
  rw [mem_cons, hused other hother]
  constructor
  · rintro (rfl | ⟨p, hp, heq⟩)
    · exact ⟨parsed, mem_append_right _ mem_cons_self, h⟩
    · exact ⟨p, mem_append_left _ hp, heq⟩
  rintro ⟨p, hp, heq⟩
  rcases mem_append.mp hp with hp | hp
  · exact .inr ⟨p, hp, heq⟩
  rw [mem_singleton.mp hp, h] at heq
  injection heq with heq
  exact .inl heq.symm

variable {index : ℕ}

theorem UsedBy.any_eq (hused : UsedBy cells used earlier) (hindex : index < cells.length) :
    (earlier.any fun p => p.cellIndex = some index) = decide (index ∈ used) := by
  rw [Bool.eq_iff_iff, decide_eq_true_iff, hused index hindex, any_eq_true]
  simp

theorem applyCells_cons (hused : UsedBy cells used earlier)
    (parsed : ParsedVirtualCell) (rest : List ParsedVirtualCell) :
    ∃ used', UsedBy cells used' (earlier ++ [parsed]) ∧
      applyCells cells used (parsed :: rest) =
        newCell parsed (originCell cells earlier parsed) :: applyCells cells used' rest := by
  rw [originCell]
  cases hindex : parsed.cellIndex with
  | none =>
    refine ⟨used, hused.same fun index _ h => ?_, ?_⟩
    · rw [hindex] at h
      cases h
    rw [applyCells, hindex]
    rfl
  | some index =>
    rw [Option.bind_some]
    cases hcell : cells[index]? with
    | none =>
      -- the index is not one of the notebook
      have hlen : cells.length ≤ index := List.getElem?_eq_none_iff.mp hcell
      refine ⟨used, hused.same fun other hother h => ?_, ?_⟩
      · rw [hindex] at h
        injection h with h
        omega
      rw [applyCells, hindex]
      simp only [hcell, ite_self]
      rfl
    | some cell =>
      obtain ⟨hlen, -⟩ := List.getElem?_eq_some_iff.mp hcell
      rw [hused.any_eq hlen]
      by_cases hmem : index ∈ used
      · -- an earlier cell has it
        refine ⟨used, hused.same fun other _ h => ?_, ?_⟩
        · rw [hindex] at h
          injection h with h
          rwa [← h]
        rw [applyCells, hindex]
        simp only [if_pos hmem, decide_eq_true hmem]
        rfl
      refine ⟨index :: used, hused.cons hindex, ?_⟩
      rw [applyCells, hindex]
      simp only [if_neg hmem, hcell, decide_eq_false hmem]
      rfl

/-- Every parsed cell gets the original cell it names, unless an earlier one has named it. -/
theorem applyCells_eq (hused : UsedBy cells used earlier) (parsed : List ParsedVirtualCell) :
    applyCells cells used parsed = parsed.mapIdx fun index p =>
      newCell p (originCell cells (earlier ++ parsed.take index) p) := by
  induction parsed generalizing used earlier with
  | nil => rfl
  | cons p parsed ih =>
    obtain ⟨used', hused', heq⟩ := applyCells_cons hused p parsed
    rw [heq, ih hused', mapIdx_cons, take_zero, append_nil]
    congr 1
    refine mapIdx_eq_mapIdx_iff.mpr fun index hindex => ?_
    rw [take_succ_cons, append_assoc, singleton_append]

variable {result : NotebookDocument J}

theorem applyNotebookEditableText_ok {notebook : NotebookDocument J} {text displayPath : Units} :
    applyNotebookEditableText notebook text displayPath = .ok result ↔
      ∃ parsed, parseNotebookEditableText text displayPath = .ok parsed ∧
        result = { notebook with
          cells := parsed.mapIdx fun index p =>
            newCell p (originCell notebook.cells (parsed.take index) p) } := by
  have hused : UsedBy notebook.cells [] [] := by simp [UsedBy]
  rw [applyNotebookEditableText]
  cases hparse : parseNotebookEditableText text displayPath with
  | error => simp [bind, Except.bind]
  | ok parsed =>
    have hcells := applyCells_eq hused parsed
    simp only [bind, Except.bind, Except.ok.injEq, exists_eq_left', hcells]
    exact eq_comm

/-! ### What is kept -/

/-- The cell that `applyNotebookEditableText` writes defaults into. -/
def NotebookCell.withDefaults (cell : NotebookCell J) : NotebookCell J :=
  if cell.cellType = .code then
    { cell with
      executionCount := cell.executionCount.orAssign .null
      outputs := cell.outputs.orAssign (.value []) }
  else cell

structure SameCell (cell cell' : NotebookCell J) : Prop where
  cellType : cell'.cellType = cell.cellType
  source : sourceToText cell'.source = sourceToText cell.source
  metadata : cell'.metadata = cell.metadata
  outputs : cell.cellType = .code → cell'.outputs = cell.outputs
  executionCount : cell.cellType = .code → cell'.executionCount = cell.executionCount

/-- The parsed cell `position` is the first that names the original cell `index`. -/
def FirstNaming (notebook : NotebookDocument J) (parsed : List ParsedVirtualCell)
    (index position : ℕ) : Prop :=
  index < notebook.cells.length ∧
    (parsed[position]?.bind (·.cellIndex)) = some index ∧
    ∀ p ∈ parsed.take position, p.cellIndex ≠ some index

def NoOutputs (cell : NotebookCell J) : Prop :=
  cell.outputs = .undefined ∨ cell.outputs = .value []

variable {parsed : List ParsedVirtualCell} {notebook : NotebookDocument J}

theorem FirstNaming.unique {position position' : ℕ} (h : FirstNaming notebook parsed index position)
    (h' : FirstNaming notebook parsed index position') : position = position' := by
  have hle {a b : ℕ} (ha : FirstNaming notebook parsed index a)
      (hb : FirstNaming notebook parsed index b) : b ≤ a := by
    obtain ⟨p, hp, hindex⟩ := Option.bind_eq_some_iff.mp ha.2.1
    by_contra hlt
    refine hb.2.2 p (mem_iff_getElem?.mpr ⟨a, ?_⟩) hindex
    rw [getElem?_take_of_lt (by omega), hp]
  exact le_antisymm (hle h' h) (hle h h')

variable {cell : NotebookCell J}

theorem originCell_eq_some {position : ℕ} {p : ParsedVirtualCell} (hp : parsed[position]? = some p)
    : originCell notebook.cells (parsed.take position) p = some cell ↔
      ∃ index, FirstNaming notebook parsed index position ∧
        notebook.cells[index]? = some cell := by
  rw [originCell, Option.bind_eq_some_iff]
  constructor
  · rintro ⟨index, hindex, hsome⟩
    split at hsome
    · cases hsome
    next hany =>
    refine ⟨index, ⟨(List.getElem?_eq_some_iff.mp hsome).1, ?_, fun q hq heq => hany ?_⟩, hsome⟩
    · rw [hp]
      exact hindex
    · exact any_eq_true.mpr ⟨q, hq, decide_eq_true heq⟩
  rintro ⟨index, ⟨-, hindex, hfirst⟩, hsome⟩
  rw [hp] at hindex
  refine ⟨index, hindex, ?_⟩
  rw [if_neg, hsome]
  intro hany
  obtain ⟨q, hq, heq⟩ := any_eq_true.mp hany
  exact hfirst q hq (of_decide_eq_true heq)

theorem originCell_parsedCells (h : notebook.cells[index]? = some cell) :
    originCell notebook.cells ((parsedCells notebook.cells).take index)
      ⟨cell.cellType, some index, sourceToText cell.source⟩ = some cell := by
  have hp : (parsedCells notebook.cells)[index]? =
      some ⟨cell.cellType, some index, sourceToText cell.source⟩ := by
    rw [parsedCells, getElem?_mapIdx, h]
    rfl
  refine (originCell_eq_some hp).mpr ⟨index, ⟨(List.getElem?_eq_some_iff.mp h).1, ?_, ?_⟩, h⟩
  · rw [hp]
    rfl
  intro p hmem heq
  obtain ⟨position, hposition⟩ := mem_iff_getElem?.mp hmem
  rw [getElem?_take] at hposition
  split at hposition
  · next hlt =>
    -- every cell names its own index
    rw [parsedCells, getElem?_mapIdx, Option.map_eq_some_iff] at hposition
    obtain ⟨other, -, rfl⟩ := hposition
    injection heq with heq
    omega
  · cases hposition

theorem sameCell_reattachCell (cell : NotebookCell J) (index : Option ℕ) :
    SameCell cell.withDefaults
      (reattachCell cell ⟨cell.cellType, index, sourceToText cell.source⟩) := by
  have hsource := sourceToText_split (sourceToText cell.source)
  by_cases hcode : cell.cellType = .code
  · rw [NotebookCell.withDefaults, if_pos hcode]
    refine ⟨rfl, hsource, rfl, fun _ => ?_, fun _ => ?_⟩
    · exact if_pos hcode
    · exact if_pos hcode
  rw [NotebookCell.withDefaults, if_neg hcode]
  exact ⟨rfl, hsource, rfl, fun h => absurd h hcode, fun h => absurd h hcode⟩

theorem noOutputs_createNotebookCell (parsed : ParsedVirtualCell) :
    NoOutputs (createNotebookCell parsed : NotebookCell J) := by
  by_cases h : parsed.cellType = .code
  · exact .inr (if_pos h)
  · exact .inl (if_neg h)

/-- What an edited text makes of a notebook. -/
structure Reattached (notebook : NotebookDocument J) (parsed : List ParsedVirtualCell)
    (result : NotebookDocument J) : Prop where
  length_eq : result.cells.length = parsed.length
  /-- A new cell comes from the original cell it is the first to name, or has no outputs. -/
  origin : ∀ (position : ℕ) (p : ParsedVirtualCell) (cell : NotebookCell J),
    parsed[position]? = some p → result.cells[position]? = some cell →
      (∃ index original, FirstNaming notebook parsed index position ∧
        notebook.cells[index]? = some original ∧ cell = reattachCell original p) ∨
      ((∀ index, ¬ FirstNaming notebook parsed index position) ∧ NoOutputs cell)
  unique : ∀ index position position', FirstNaming notebook parsed index position →
    FirstNaming notebook parsed index position' → position = position'

theorem reattached (h : result.cells = parsed.mapIdx fun index p =>
      newCell p (originCell notebook.cells (parsed.take index) p)) :
    Reattached notebook parsed result := by
  refine ⟨by rw [h, length_mapIdx], ?_, fun _ _ _ => FirstNaming.unique⟩
  intro position p cell hp hcell
  have hnew : newCell p (originCell notebook.cells (parsed.take position) p) = cell := by
    rw [h, getElem?_mapIdx, hp] at hcell
    injection hcell
  rw [← hnew]
  cases horigin : originCell notebook.cells (parsed.take position) p with
  | some original =>
    obtain ⟨index, hfirst, horiginal⟩ := (originCell_eq_some hp).mp horigin
    exact .inl ⟨index, original, hfirst, horiginal, rfl⟩
  | none =>
    refine .inr ⟨fun index hfirst => ?_, noOutputs_createNotebookCell p⟩
    have hsome := (originCell_eq_some hp).mpr
      ⟨index, hfirst, getElem?_eq_getElem hfirst.1⟩
    rw [horigin] at hsome
    cases hsome

theorem parse_result (h : result.cells = parsed.mapIdx fun index p =>
      newCell p (originCell notebook.cells (parsed.take index) p)) (displayPath : Units) :
    ∃ reparsed, parseNotebookEditableText (notebookToEditableText result) displayPath =
        .ok reparsed ∧
      reparsed.map (fun p => (p.cellType, p.source)) =
        parsed.map fun p => (p.cellType, p.source) := by
  refine ⟨_, parse_editableText result displayPath, ?_⟩
  rw [parsedCells, map_mapIdx, h]
  refine ext_getElem (by simp) fun index h1 h2 => ?_
  simp [newCell_cellType, newCell_source]

/-- A notebook survives its text, up to defaults that are written into code cells; and an edited
text attaches every original cell once. -/
theorem editableText_roundTrip (notebook : NotebookDocument J) (displayPath : Units) :
    (∃ cells, applyNotebookEditableText notebook (notebookToEditableText notebook) displayPath =
        .ok { notebook with cells } ∧
      List.Forall₂ SameCell (notebook.cells.map NotebookCell.withDefaults) cells) ∧
    ∀ text result, applyNotebookEditableText notebook text displayPath = .ok result →
      ∃ parsed, parseNotebookEditableText text displayPath = .ok parsed ∧
        Reattached notebook parsed result ∧
        ∃ reparsed, parseNotebookEditableText (notebookToEditableText result) displayPath =
            .ok reparsed ∧
          reparsed.map (fun p => (p.cellType, p.source)) =
            parsed.map fun p => (p.cellType, p.source) := by
  constructor
  · refine ⟨_, applyNotebookEditableText_ok.mpr
      ⟨_, parse_editableText notebook displayPath, rfl⟩, ?_⟩
    rw [forall₂_iff_get]
    refine ⟨by simp [parsedCells], fun index h1 h2 => ?_⟩
    rw [length_map] at h1
    have horigin := originCell_parsedCells (getElem?_eq_getElem h1)
    simp only [parsedCells] at horigin
    simp only [get_eq_getElem, getElem_map, getElem_mapIdx, parsedCells, horigin]
    exact sameCell_reattachCell _ _
  intro text result h
  obtain ⟨parsed, hparsed, rfl⟩ := applyNotebookEditableText_ok.mp h
  exact ⟨parsed, hparsed, reattached rfl, parse_result rfl displayPath⟩

/-- A markdown cell that reads like a marker, and a code cell with an output. -/
def twoCells : NotebookDocument ℕ where
  cells := [
    ⟨.markdown, some (.text (units "# %% [raw]\n")), some [], .undefined, .undefined, []⟩,
    ⟨.code, some (.lines [units "a\n", units "b"]), none, .value 3, .value [7], []⟩]
  metadata := []
  others := [(units "nbformat", 4)]

theorem editableText_roundTrip_twoCells :
    ∃ parsed, parseNotebookEditableText (units "# %% [code] cell:1\nb") [] = .ok parsed ∧
      parsed = [⟨.code, some 1, units "b"⟩] := by
  have hok : applyNotebookEditableText twoCells (units "# %% [code] cell:1\nb") [] =
      .ok { twoCells with
        cells := [⟨.code, some (.lines [units "b"]), none, .value 3, .value [7], []⟩] } := by
    decide +kernel
  obtain ⟨parsed, hparsed, -⟩ := (editableText_roundTrip twoCells []).2 _ _ hok
  refine ⟨parsed, hparsed, ?_⟩
  have hparse : parseNotebookEditableText (units "# %% [code] cell:1\nb") [] =
      .ok [⟨.code, some 1, units "b"⟩] := by
    decide +kernel
  rw [hparse] at hparsed
  injection hparsed with heq
  exact heq.symm

/-- A code cell without outputs, which the format does not allow but the code reads. -/
def bareCell : NotebookCell ℕ := ⟨.code, none, none, .undefined, .undefined, []⟩

/-- The cell gets an empty list of outputs that it did not have. -/
theorem not_sameCell_bareCell : ¬ ∀ (notebook : NotebookDocument ℕ) (displayPath : Units),
      ∃ cells, applyNotebookEditableText notebook (notebookToEditableText notebook) displayPath =
          .ok { notebook with cells } ∧
        List.Forall₂ SameCell notebook.cells cells := by
  intro h
  obtain ⟨cells, hok, hsame⟩ := h ⟨[bareCell], [], []⟩ []
  have happly : applyNotebookEditableText ⟨[bareCell], [], []⟩
      (notebookToEditableText ⟨[bareCell], [], []⟩) [] =
      .ok ⟨[⟨.code, some (.lines []), none, .null, .value [], []⟩], [], []⟩ := by
    decide +kernel
  rw [happly] at hok
  injection hok with heq
  have hcells := congrArg NotebookDocument.cells heq
  subst hcells
  obtain ⟨hcell, -⟩ := forall₂_cons.mp hsame
  have houtputs : Nullish.value [] = (Nullish.undefined : Nullish (List ℕ)) := hcell.outputs rfl
  cases houtputs

end BreadboardTui.Notebook
