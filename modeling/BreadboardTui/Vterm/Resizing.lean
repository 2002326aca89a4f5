import BreadboardTui.Vterm.Cursor

/-!
# A terminal at another size

The text and the cursor stay when no wide grapheme stands across the end of a new row, no new row
ends just in front of the cursor within its line, the cursor is not behind the new rows of its
line, and the new screen reaches from the cursor to the end of the text.
-/

namespace BreadboardTui.Vterm

open List

open Terminal

/-- The grid of the normal buffer is in order. -/
structure WellFormed (t : Terminal) : Prop where
  rows_le : t.rows ≤ t.normal.lines.length
  le_capacity : t.normal.lines.length ≤ t.rows + t.scrollback
  length_cells : ∀ line ∈ t.normal.lines, line.cells.length = t.cols
  paired : ∀ line ∈ t.normal.lines, Paired line.cells
  baseY : t.normal.baseY = t.normal.lines.length - t.rows
  viewportY : t.normal.viewportY ≤ t.normal.baseY
  cursorY : t.normal.cursorY < t.rows
  cursorX : t.normal.cursorX ≤ t.cols

theorem WellFormed.cursor_lt {t : Terminal} (h : WellFormed t) :
    t.normal.baseY + t.normal.cursorY < t.normal.lines.length := by
  have hrows := h.rows_le
  have hcursor := h.cursorY
  rw [h.baseY]
  omega

structure Resizable (b : BufferState) (columns rows : ℕ) : Prop where
  unsplit : ∀ group ∈ groups b.lines, Unsplit columns (groupCells group)
  fits : CursorFits columns b.cursorX (groups b.lines) (b.baseY + b.cursorY)
  visible : textRows columns (groups b.lines) ≤
    newRow columns b.cursorX (groups b.lines) (b.baseY + b.cursorY) + rows

/-- The logical lines are those there were, but for leading rows above the capacity and blank lines
at the end, and the cursor stands where it was. -/
def TextKept (before after : Terminal) : Prop :=
  ∃ full removed, after.normal.lines = full.drop removed ∧
    removed = full.length - (after.rows + after.scrollback) ∧
    withoutBlankEnd (logicalLines full) = withoutBlankEnd (logicalLines before.normal.lines) ∧
    Stands
      (((groups before.normal.lines).map textColumns).getD (position before.normal.lines
        (before.normal.baseY + before.normal.cursorY) before.normal.cursorX).1 0)
      (position before.normal.lines (before.normal.baseY + before.normal.cursorY)
        before.normal.cursorX)
      (position full (removed + after.normal.baseY + after.normal.cursorY) after.normal.cursorX)

theorem TextKept.refl {t : Terminal} (h : WellFormed t) : TextKept t t := by
  refine ⟨t.normal.lines, 0, rfl, ?_, rfl, ?_⟩
  · have hcapacity := h.le_capacity
    omega
  rw [zero_add]
  exact ⟨rfl, .inl rfl⟩

section Reflow

variable {t : Terminal} {columns rows : ℕ}

theorem WellFormed.cutsWell (h : WellFormed t) (hcolumns : 0 < columns)
    (hunsplit : ∀ group ∈ groups t.normal.lines, Unsplit columns (groupCells group)) :
    ∀ group ∈ groups t.normal.lines, CutsWell columns group := fun group hgroup =>
  rewrap_spec hcolumns (paired_of_mem_groups h.paired hgroup) (hunsplit group hgroup)

theorem WellFormed.placeCursor (h : WellFormed t) (hcolumns : 0 < columns)
    (hresizable : Resizable t.normal columns rows) :
    let row := t.normal.baseY + t.normal.cursorY
    let placed := Vterm.placeCursor columns t.normal.cursorX (groups t.normal.lines) row 0
    placed.1 = newRow columns t.normal.cursorX (groups t.normal.lines) row ∧
      placed.1 < (layout columns t.normal.lines).length ∧
      Stands
        (((groups t.normal.lines).map textColumns).getD
          (position t.normal.lines row t.normal.cursorX).1 0)
        (position t.normal.lines row t.normal.cursorX)
        (position (layout columns t.normal.lines) placed.1 placed.2) := by
  intro row placed
  have hrow : row < (groups t.normal.lines).flatten.length := by
    rw [groups_flatten]
    exact h.cursor_lt
  obtain ⟨hplace, hless, hstands⟩ := placeCursor_spec hcolumns hrow
    (h.cutsWell hcolumns hresizable.unsplit) hresizable.fits 0
  rw [zero_add] at hplace
  have hplaced : placed.1 = newRow columns t.normal.cursorX (groups t.normal.lines) row := hplace
  refine ⟨hplaced, ?_, ?_⟩
  · rw [hplaced]
    exact hless
  rw [hplaced, position, position, groups_layout hcolumns h.paired hresizable.unsplit]
  exact hstands

/-- The rows at another size: those of the layout but for blank ones at the end, and not so many
that the cursor is not on the screen. -/
theorem fullLayout_spec (h : WellFormed t) (hcolumns : 0 < columns) (hrows : 0 < rows)
    (hresizable : Resizable t.normal columns rows) :
    let placed := Vterm.placeCursor columns t.normal.cursorX (groups t.normal.lines)
      (t.normal.baseY + t.normal.cursorY) 0
    ∃ kept gone added, layout columns t.normal.lines = kept ++ gone ∧
      fullLayout t.normal columns rows = kept ++ added ∧
      (∀ row ∈ gone, isBlankRow row = true) ∧ (∀ row ∈ added, isBlankRow row = true) ∧
      placed.1 < kept.length ∧ rows ≤ (kept ++ added).length ∧
      (kept ++ added).length ≤ placed.1 + rows := by
  intro placed
  obtain ⟨hplaced, hless, -⟩ := h.placeCursor hcolumns hresizable
  obtain ⟨gone, hgone, hblank, hkept⟩ := popBlank_spec rows placed.1 (layout columns t.normal.lines)
  obtain ⟨text, blank, htext, hblanktext, hlength⟩ :=
    layout_eq (h.cutsWell hcolumns hresizable.unsplit)
  have hbound : (popBlank rows placed.1 (layout columns t.normal.lines)).length ≤
    max (max rows (placed.1 + 1)) text.length := popBlank_length rows placed.1 htext hblanktext
  have hvisible := hresizable.visible
  rw [← hlength, ← hplaced] at hvisible
  have hvisible' : text.length ≤ placed.1 + rows := hvisible
  refine ⟨popBlank rows placed.1 (layout columns t.normal.lines), gone,
    List.replicate (rows - (popBlank rows placed.1 (layout columns t.normal.lines)).length)
      (blankLine columns), hgone, rfl, hblank, fun row hrow => ?_, hkept hless, ?_, ?_⟩
  · rw [eq_of_mem_replicate hrow]
    exact isBlankRow_blankLine columns
  · rw [length_append, length_replicate]
    omega
  rw [length_append, length_replicate]
  omega

theorem reflow_textKept (h : WellFormed t) (hcolumns : 0 < columns) (hrows : 0 < rows)
    (hresizable : Resizable t.normal columns rows) (pendingWrap : Bool) :
    TextKept t ⟨columns, rows, t.scrollback, reflow t.scrollback t.normal columns rows,
      pendingWrap⟩ := by
  obtain ⟨-, -, hstands⟩ := h.placeCursor hcolumns hresizable
  obtain ⟨kept, gone, added, hlayout, hfull, hgone, hadded, hcursor, hle, hvisible⟩ :=
    fullLayout_spec h hcolumns hrows hresizable
  refine ⟨fullLayout t.normal columns rows, _, rfl, rfl, ?_, ?_⟩
  · rw [hfull, logicalLines_append_blank hadded, ← logicalLines_append_blank hgone, ← hlayout,
      logicalLines_layout hcolumns h.paired hresizable.unsplit]
  -- the cursor's row is on the screen
  have hrow : (fullLayout t.normal columns rows).length - (rows + t.scrollback) +
      (reflow t.scrollback t.normal columns rows).baseY +
      (reflow t.scrollback t.normal columns rows).cursorY =
        (Vterm.placeCursor columns t.normal.cursorX (groups t.normal.lines)
          (t.normal.baseY + t.normal.cursorY) 0).1 := by
    rw [reflow]
    dsimp only
    rw [length_drop, hfull]
    have hlast : (Vterm.placeCursor columns t.normal.cursorX (groups t.normal.lines)
      (t.normal.baseY + t.normal.cursorY) 0).1 < (kept ++ added).length := by
      rw [length_append]
      exact Nat.lt_add_right _ hcursor
    omega
  rw [hrow, hfull, position_append_blank hadded hcursor,
    ← position_append_blank hgone hcursor, ← hlayout]
  exact hstands

end Reflow

theorem resize_textKept {t : Terminal} (h : WellFormed t) (columns rows : ℕ)
    (hresizable : max 2 columns = t.cols ∧ max 1 rows = t.rows ∨
      Resizable t.normal (max 2 columns) (max 1 rows)) :
    TextKept t (t.resize columns rows) := by
  rw [resize]
  split
  · exact .refl h
  next hother =>
  have hcolumns : 0 < max 2 columns := lt_of_lt_of_le two_pos (le_max_left _ _)
  have hrows : 0 < max 1 rows := lt_of_lt_of_le one_pos (le_max_left _ _)
  exact reflow_textKept h hcolumns hrows (hresizable.resolve_left hother) _

/-- After a run of text, line feeds and carriage returns, another size keeps the text and the
cursor. -/
theorem run_resize_textKept (cols rows scrollback : ℕ) (outputs : List Output)
    (nextColumns nextRows : ℕ) (h : WellFormed ((new cols rows scrollback).run outputs))
    (hresizable : max 2 nextColumns = ((new cols rows scrollback).run outputs).cols ∧
        max 1 nextRows = ((new cols rows scrollback).run outputs).rows ∨
      Resizable ((new cols rows scrollback).run outputs).normal (max 2 nextColumns)
        (max 1 nextRows)) :
    TextKept ((new cols rows scrollback).run outputs)
      (((new cols rows scrollback).run outputs).resize nextColumns nextRows) :=
  resize_textKept h nextColumns nextRows hresizable

theorem Paired.of_narrow {cells : List Cell} (h : ∀ cell ∈ cells, cell.width = 1) :
    Paired cells := by
  induction cells with
  | nil => exact .nil
  | cons cell cells ih =>
    obtain ⟨hcell, hcells⟩ := forall_mem_cons.mp h
    exact .narrow hcell (ih hcells)

theorem run_resize_textKept_wider :
    TextKept ((new 2 2 1000).run [.text "a" false, .text "b" false, .text "c" false])
      (((new 2 2 1000).run [.text "a" false, .text "b" false, .text "c" false]).resize 5 1) := by
  have hlines : ((new 2 2 1000).run
      [.text "a" false, .text "b" false, .text "c" false]).normal.lines =
        [⟨[⟨"a", 1⟩, ⟨"b", 1⟩], false⟩, ⟨[⟨"c", 1⟩, blankCell], true⟩] := by decide +kernel
  have hgroups : groups ((new 2 2 1000).run
      [.text "a" false, .text "b" false, .text "c" false]).normal.lines =
        [[⟨[⟨"a", 1⟩, ⟨"b", 1⟩], false⟩, ⟨[⟨"c", 1⟩, blankCell], true⟩]] := by decide +kernel
  refine run_resize_textKept 2 2 1000 _ 5 1 {
    rows_le := by decide +kernel
    le_capacity := by decide +kernel
    length_cells := by decide +kernel
    paired := ?_
    baseY := by decide +kernel
    viewportY := by decide +kernel
    cursorY := by decide +kernel
    cursorX := by decide +kernel } (.inr { unsplit := ?_, fits := ?_, visible := ?_ })
  · rw [hlines, forall_mem_cons, forall_mem_singleton]
    exact ⟨.of_narrow (by decide), .of_narrow (by decide)⟩
  · rw [hgroups, forall_mem_singleton]
    intro row cell hcell
    have hnarrow : ∀ cell ∈ groupCells [⟨[⟨"a", 1⟩, ⟨"b", 1⟩], false⟩,
      ⟨[⟨"c", 1⟩, blankCell], true⟩], cell.width ≠ 0 := by decide
    exact hnarrow cell (mem_of_getElem? hcell)
  · rw [hgroups, CursorFits, if_pos (by decide +kernel)]
    exact ⟨fun _ _ => by decide +kernel, by decide +kernel⟩
  rw [hgroups]
  decide +kernel

/-- A wide grapheme that stands across the end of a row leaves a blank in the text. -/
theorem not_textKept_wide : ¬∀ cols rows scrollback outputs nextColumns nextRows,
    WellFormed ((new cols rows scrollback).run outputs) →
      TextKept ((new cols rows scrollback).run outputs)
        (((new cols rows scrollback).run outputs).resize nextColumns nextRows) := by
  intro hall
  have hlines : ((new 4 2 1000).run
      [.text "a" false, .text "b" false, .text "界" true]).normal.lines =
        [⟨[⟨"a", 1⟩, ⟨"b", 1⟩, ⟨"界", 2⟩, halfCell], false⟩, blankLine 4] := by decide +kernel
  have hafter : (((new 4 2 1000).run
      [.text "a" false, .text "b" false, .text "界" true]).resize 3 2).normal.lines =
        [⟨[⟨"a", 1⟩, ⟨"b", 1⟩, blankCell], false⟩, ⟨[⟨"界", 2⟩, halfCell, blankCell], true⟩] := by
    decide +kernel
  have hwell : WellFormed ((new 4 2 1000).run
      [.text "a" false, .text "b" false, .text "界" true]) := {
    rows_le := by decide +kernel
    le_capacity := by decide +kernel
    length_cells := by decide +kernel
    paired := by
      rw [hlines, forall_mem_cons, forall_mem_singleton]
      exact ⟨.narrow rfl (.narrow rfl (.wide rfl rfl .nil)), .of_narrow (by decide)⟩
    baseY := by decide +kernel
    viewportY := by decide +kernel
    cursorY := by decide +kernel
    cursorX := by decide +kernel }
  obtain ⟨full, removed, hfull, hremoved, htext, -⟩ := hall 4 2 1000 _ 3 2 hwell
  have hcapacity : (((new 4 2 1000).run
      [.text "a" false, .text "b" false, .text "界" true]).resize 3 2).rows +
        (((new 4 2 1000).run
          [.text "a" false, .text "b" false, .text "界" true]).resize 3 2).scrollback = 1002 := by
    decide +kernel
  rw [hcapacity] at hremoved
  rw [hafter] at hfull
  have hlength := congrArg List.length hfull
  simp only [length_cons, length_nil, length_drop] at hlength
  obtain rfl : removed = 0 := by omega
  rw [drop_zero] at hfull
  rw [← hfull, hlines] at htext
  exact absurd htext (by decide +kernel)

end BreadboardTui.Vterm
