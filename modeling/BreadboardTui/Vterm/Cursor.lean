import BreadboardTui.Vterm.Logical

/-!
# The cursor on its line

The cursor stands at a column of a logical line, with so many columns in front of it. It stands
there at another width too, if the new rows do not end just in front of it and it is not too far
behind the line.
-/

namespace BreadboardTui.Vterm

open List

/-- The group that a row is in, and how many columns of it are in front of a column. -/
def positionIn : List (List BufferLine) → ℕ → ℕ → ℕ × ℕ
  | [], _, _ => (0, 0)
  | group :: others, row, column =>
    if row < group.length then (0, offsetIn group row column)
    else
      ((positionIn others (row - group.length) column).1 + 1,
        (positionIn others (row - group.length) column).2)

/-- The logical line that a row is in, and how many of its columns are in front of a column. -/
def position (lines : List BufferLine) (row column : ℕ) : ℕ × ℕ :=
  positionIn (groups lines) row column

/-- How many columns the text of a group has. -/
def textColumns (group : List BufferLine) : ℕ := usedColumns (group.flatMap BufferLine.cells)

/-- A cursor is on the same line and column, or is behind the text of the line and stays behind it
or at its last column. -/
def Stands (columns : ℕ) (before after : ℕ × ℕ) : Prop :=
  after.1 = before.1 ∧
    (after.2 = before.2 ∨ columns ≤ before.2 ∧ after.2 ≤ before.2 ∧ columns ≤ after.2 + 1)

/-- The new rows of the cursor's line do not end in front of the cursor, unless its text does, and
the cursor is not behind them. -/
def CursorFits (columns cursorX : ℕ) : List (List BufferLine) → ℕ → Prop
  | [], _ => True
  | group :: others, row =>
    if row < group.length then
      (0 < offsetIn group row cursorX → offsetIn group row cursorX % columns = 0 →
        textColumns group ≤ offsetIn group row cursorX) ∧
      offsetIn group row cursorX ≤ rowCount columns (groupCells group).length * columns
    else CursorFits columns cursorX others (row - group.length)

/-- The new row of the cursor. -/
def newRow (columns cursorX : ℕ) : List (List BufferLine) → ℕ → ℕ
  | [], _ => 0
  | group :: others, row =>
    if row < group.length then (offsetIn group row cursorX - 1) / columns
    else
      rowCount columns (groupCells group).length +
        newRow columns cursorX others (row - group.length)

/-! ### In its group -/

variable {columns : ℕ}

theorem place_eq (hcolumns : 0 < columns) (offset : ℕ) :
    (place columns offset).1 = (offset - 1) / columns ∧
      (place columns offset).1 * columns + (place columns offset).2 =
        if 0 < offset ∧ offset % columns = 0 then offset - 1 else offset := by
  have hdiv := Nat.div_add_mod offset columns
  rw [place]
  split
  · next hboundary =>
    obtain ⟨hpos, hmod⟩ := hboundary
    have hrows : 0 < offset / columns := by
      refine Nat.div_pos ?_ hcolumns
      exact Nat.le_of_dvd hpos (Nat.dvd_of_mod_eq_zero hmod)
    obtain ⟨rows, hrows⟩ := Nat.exists_eq_succ_of_ne_zero hrows.ne'
    -- the offset is a number of full rows, and the cursor is at the end of the last of them
    rw [hmod, hrows, Nat.add_zero, Nat.mul_succ] at hdiv
    rw [hrows, Nat.succ_sub_one]
    have hlast : offset - 1 = columns * rows + (columns - 1) := by omega
    refine ⟨?_, ?_⟩
    · rw [hlast, Nat.mul_add_div hcolumns, Nat.div_eq_of_lt (by omega), Nat.add_zero]
    · rw [hlast, Nat.mul_comm]
  next hboundary =>
  refine ⟨?_, ?_⟩
  · dsimp only
    by_cases hzero : offset = 0
    · rw [hzero]
    have hmod : 0 < offset % columns := by
      refine Nat.pos_of_ne_zero fun hmod => hboundary ⟨Nat.pos_of_ne_zero hzero, hmod⟩
    have hlt := Nat.mod_lt offset hcolumns
    have hprev : offset - 1 = columns * (offset / columns) + (offset % columns - 1) := by
      omega
    have hsmall : (offset % columns - 1) / columns = 0 := Nat.div_eq_of_lt (by omega)
    rw [hprev, Nat.mul_add_div hcolumns, hsmall, Nat.add_zero]
  rw [Nat.mul_comm]
  exact hdiv

theorem place_kept (hcolumns : 0 < columns) {group rows : List BufferLine}
    {offset : ℕ} (hrows : RowsOf columns false (groupCells group) rows)
    (hcount : rows.length = rowCount columns (groupCells group).length)
    (hboundary : 0 < offset → offset % columns = 0 → textColumns group ≤ offset)
    (hfits : offset ≤ rowCount columns (groupCells group).length * columns) :
    (place columns offset).1 < rows.length ∧
      Stands (textColumns group) (0, offset)
        (0, offsetIn rows (place columns offset).1 (place columns offset).2) := by
  obtain ⟨hrow, hplace⟩ := place_eq hcolumns offset
  have hlt : (place columns offset).1 < rows.length := by
    rw [hrow, hcount, Nat.div_lt_iff_lt_mul hcolumns]
    have hone : 0 < rowCount columns (groupCells group).length * columns :=
      Nat.mul_pos (Nat.le_max_left _ _) hcolumns
    omega
  refine ⟨hlt, rfl, ?_⟩
  rw [offsetIn, length_flatMap_take hrows.length_cells hlt.le, hplace]
  split
  · next hmod =>
    -- the cursor is behind the text, and is one column in front of that now
    have hbehind := hboundary hmod.1 hmod.2
    exact .inr ⟨hbehind, Nat.sub_le _ _, by omega⟩
  · exact .inl rfl

/-! ### In all rows -/

/-- The rows of a group, when they are well cut. -/
def CutsWell (columns : ℕ) (group : List BufferLine) : Prop :=
  RowsOf columns false (groupCells group) (rewrap columns (groupCells group)) ∧
    (rewrap columns (groupCells group)).length = rowCount columns (groupCells group).length

variable {others : List (List BufferLine)} {row : ℕ}

theorem placeCursor_spec {cursorX : ℕ} (hcolumns : 0 < columns)
    (hrow : row < others.flatten.length) (hcut : ∀ group ∈ others, CutsWell columns group)
    (hfits : CursorFits columns cursorX others row) (start : ℕ) :
    (placeCursor columns cursorX others row start).1 =
        start + newRow columns cursorX others row ∧
      newRow columns cursorX others row <
        (others.flatMap fun group => rewrap columns (groupCells group)).length ∧
      Stands ((others.map textColumns).getD (positionIn others row cursorX).1 0)
        (positionIn others row cursorX)
        (positionIn (others.map fun group => rewrap columns (groupCells group))
          (newRow columns cursorX others row)
          (placeCursor columns cursorX others row start).2) := by
  induction others generalizing row start with
  | nil => cases hrow
  | cons group others ih =>
    obtain ⟨⟨hrows, hcount⟩, hcutothers⟩ := forall_mem_cons.mp hcut
    rw [CursorFits] at hfits
    rw [placeCursor, newRow, positionIn, flatMap_cons, length_append, map_cons, map_cons]
    by_cases hhere : row < group.length
    · rw [if_pos hhere] at hfits ⊢
      obtain ⟨hboundary, hbehind⟩ := hfits
      obtain ⟨hlt, hstands⟩ := place_kept hcolumns hrows hcount hboundary hbehind
      have hplace := (place_eq hcolumns (offsetIn group row cursorX)).1
      rw [if_pos hhere, if_pos hhere]
      refine ⟨congrArg (start + ·) hplace, ?_, ?_⟩
      · rw [← hplace]
        exact Nat.lt_add_right _ hlt
      rw [positionIn, ← hplace, if_pos hlt]
      exact hstands
    rw [if_neg hhere] at hfits ⊢
    rw [flatten_cons, length_append] at hrow
    have hrest : row - group.length < others.flatten.length := by omega
    obtain ⟨hstart, hless, hline, hstands⟩ := ih hrest hcutothers hfits
      (start + (rewrap columns (groupCells group)).length)
    rw [if_neg hhere, if_neg hhere, ← hcount]
    refine ⟨?_, ?_, ?_⟩
    · rw [hstart, add_assoc]
    · exact Nat.add_lt_add_left hless _
    rw [positionIn, if_neg (by omega), Nat.add_sub_cancel_left]
    exact ⟨congrArg (· + 1) hline, hstands⟩

theorem positionIn_append {more : List (List BufferLine)}
    (hrow : row < others.flatten.length) (column : ℕ) :
    positionIn (others ++ more) row column = positionIn others row column := by
  induction others generalizing row with
  | nil => cases hrow
  | cons group others ih =>
    rw [cons_append, positionIn, positionIn]
    split
    · rfl
    rw [flatten_cons, length_append] at hrow
    rw [ih (by omega)]

theorem position_append_blank {lines blank : List BufferLine}
    (h : ∀ row ∈ blank, isBlankRow row = true) (hrow : row < lines.length)
    (column : ℕ) : position (lines ++ blank) row column = position lines row column := by
  induction blank using List.reverseRecOn with
  | nil => rw [append_nil]
  | append_singleton blank last ih =>
    have hlast := h last (mem_append_right _ (mem_singleton_self _))
    rw [← ih fun other hother => h other (mem_append_left _ hother)]
    rw [← append_assoc, position, groups_concat hlast, position, positionIn_append]
    rw [groups_flatten, length_append]
    exact Nat.lt_add_right _ hrow

/-! ### How many rows are kept -/

/-- Whether a group goes into one row, which is blank. -/
def isBlankGroup (columns : ℕ) (group : List BufferLine) : Bool :=
  usedColumns (groupCells group) = 0 && rowCount columns (groupCells group).length = 1

/-- The rows of all groups up to the last that is not blank. -/
def textRows (columns : ℕ) (others : List (List BufferLine)) : ℕ :=
  ((others.rdropWhile (isBlankGroup columns)).map fun group =>
    rowCount columns (groupCells group).length).sum

theorem popBlank_length (rows cursor : ℕ) {lines text blank : List BufferLine}
    (hlines : lines = text ++ blank) (hblank : ∀ row ∈ blank, isBlankRow row = true) :
    (popBlank rows cursor lines).length ≤ max (max rows (cursor + 1)) text.length := by
  induction hlength : lines.length using Nat.strong_induction_on generalizing lines blank with
  | _ length ih =>
    rw [popBlank]
    cases blank using List.reverseRecOn with
    | nil =>
      rw [append_nil] at hlines
      subst hlines
      split
      · obtain ⟨_, hpop, -, -⟩ := popBlank_spec rows cursor lines.dropLast
        have hle := congrArg List.length hpop
        rw [length_append, length_dropLast] at hle
        omega
      · exact le_max_right _ _
    | append_singleton blank last =>
      have hdrop : lines.dropLast = text ++ blank := by
        rw [hlines, ← append_assoc, dropLast_concat]
      -- a blank row is kept for the screen or the cursor only
      have hlast : lines.getLast?.any isBlankRow = true := by
        rw [hlines, ← append_assoc, getLast?_concat]
        exact hblank last (mem_append_right _ (mem_singleton_self _))
      split
      · refine ih lines.dropLast.length ?_ hdrop
          (fun row hrow => hblank row (mem_append_left _ hrow)) rfl
        rw [length_dropLast]
        omega
      next hkeep =>
      have hless : ¬(rows < lines.length ∧ cursor < lines.length - 1) := fun hboth =>
        hkeep ⟨hboth.1, hboth.2, hlast⟩
      omega

theorem isBlankRow_of_isBlankGroup {group : List BufferLine}
    (hblank : isBlankGroup columns group = true) (hcut : CutsWell columns group) :
    ∀ row ∈ rewrap columns (groupCells group), isBlankRow row = true := by
  rw [isBlankGroup, Bool.and_eq_true] at hblank
  obtain ⟨hused, hone⟩ := hblank
  have hused : usedColumns (groupCells group) = 0 := of_decide_eq_true hused
  obtain ⟨hrows, hcount⟩ := hcut
  rw [of_decide_eq_true hone] at hcount
  obtain ⟨first, rest, hfirst, hunwrapped, -⟩ := hrows.exists_first
  obtain ⟨blank, hcells⟩ := hrows.exists_blank
  rw [hfirst, length_cons] at hcount
  obtain rfl : rest = [] := length_eq_zero_iff.mp (by omega)
  rw [hfirst, flatMap_singleton] at hcells
  have hblankcells : ∀ cell ∈ first.cells, cell.chars = "" ∧ cell.width ≠ 0 := by
    intro cell hcell
    rw [hcells] at hcell
    rcases mem_append.mp hcell with hcell | hcell
    · obtain ⟨old, hold, rfl⟩ := mem_map.mp hcell
      have hunused : old ∈ (groupCells group).drop (usedColumns (groupCells group)) := by
        rwa [hused, drop_zero]
      obtain ⟨hchars, hwidth⟩ := of_mem_drop_usedColumns hunused
      rw [renew_of_ne hwidth]
      exact ⟨hchars, hwidth⟩
    rw [eq_of_mem_replicate hcell]
    exact ⟨rfl, one_ne_zero⟩
  have husedfirst : usedColumns first.cells = 0 := by
    rw [usedColumns, length_eq_zero_iff, rdropWhile_eq_nil_iff]
    intro cell hcell
    obtain ⟨hchars, hwidth⟩ := hblankcells cell hcell
    simp [hchars, hwidth]
  rw [hfirst, forall_mem_singleton, isBlankRow, hunwrapped, husedfirst]
  rfl

theorem length_flatMap_rewrap (hcut : ∀ group ∈ others, CutsWell columns group) :
    (others.flatMap fun group => rewrap columns (groupCells group)).length =
      (others.map fun group => rowCount columns (groupCells group).length).sum := by
  rw [length_flatMap]
  refine congrArg List.sum (map_congr_left fun group hgroup => (hcut group hgroup).2)

theorem layout_eq (hcut : ∀ group ∈ others, CutsWell columns group) :
    ∃ text blank, (others.flatMap fun group => rewrap columns (groupCells group)) = text ++ blank ∧
      (∀ row ∈ blank, isBlankRow row = true) ∧ text.length = textRows columns others := by
  have hsplit : others.rdropWhile (isBlankGroup columns) ++
      others.rtakeWhile (isBlankGroup columns) = others := rdropWhile_append_rtakeWhile
  refine ⟨(others.rdropWhile (isBlankGroup columns)).flatMap fun group =>
      rewrap columns (groupCells group),
    (others.rtakeWhile (isBlankGroup columns)).flatMap fun group =>
      rewrap columns (groupCells group), ?_, ?_, ?_⟩
  · rw [← flatMap_append, hsplit]
  · intro row hrow
    obtain ⟨group, hgroup, hrow⟩ := mem_flatMap.mp hrow
    refine isBlankRow_of_isBlankGroup (mem_rtakeWhile_imp hgroup) (hcut group ?_) row hrow
    rw [← hsplit]
    exact mem_append_right _ hgroup
  refine length_flatMap_rewrap fun group hgroup => hcut group ?_
  rw [← hsplit]
  exact mem_append_left _ hgroup

end BreadboardTui.Vterm
