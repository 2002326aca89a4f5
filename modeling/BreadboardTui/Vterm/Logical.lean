import BreadboardTui.Vterm.Wrapping

/-!
# Logical lines

What a reader sees of a buffer: the characters of its logical lines, and which character of which
line the cursor is at.
-/

namespace BreadboardTui.Vterm

open List Bool

/-- The characters in cells, with their widths. A blank one is empty. -/
def glyphs (cells : List Cell) : List Cell := cells.filter fun cell => cell.width ≠ 0

/-- Without blanks at the end. -/
def trimRight (text : List Cell) : List Cell := text.rdropWhile (·.chars = "")

def groupText (group : List BufferLine) : List Cell :=
  trimRight (glyphs (group.flatMap BufferLine.cells))

/-- The physical lines joined along `isWrapped`, right-trimmed. -/
def logicalLines (lines : List BufferLine) : List (List Cell) := (groups lines).map groupText

/-- Without blank lines at the end. -/
def withoutBlankEnd (text : List (List Cell)) : List (List Cell) := text.rdropWhile (· = [])

/-! ### Characters -/

theorem glyphs_append (first last : List Cell) :
    glyphs (first ++ last) = glyphs first ++ glyphs last :=
  filter_append _ _

theorem glyphs_renew (cells : List Cell) : glyphs (cells.map renew) = glyphs cells := by
  induction cells with
  | nil => rfl
  | cons cell cells ih =>
    rw [glyphs, glyphs] at *
    rw [map_cons, filter_cons, filter_cons, renew_width]
    split
    · next hwidth => rw [ih, renew_of_ne (by simpa using hwidth)]
    · exact ih

theorem glyphs_blank (count : ℕ) :
    glyphs (List.replicate count blankCell) = List.replicate count blankCell := by
  rw [glyphs, filter_replicate, if_pos (by decide)]

theorem trimRight_append_blank {text blank : List Cell} (h : ∀ cell ∈ blank, cell.chars = "") :
    trimRight (text ++ blank) = trimRight text := by
  induction blank using List.reverseRecOn with
  | nil => rw [append_nil]
  | append_singleton blank cell ih =>
    rw [trimRight, ← append_assoc, rdropWhile_concat_pos]
    · exact ih fun other hother => h other (mem_append_left _ hother)
    · exact decide_eq_true (h cell (mem_append_right _ (mem_singleton_self _)))

variable {cells : List Cell}

/-- What is not used is blank, and has no half. -/
theorem of_mem_drop_usedColumns {cell : Cell}
    (h : cell ∈ cells.drop (usedColumns cells)) : cell.chars = "" ∧ cell.width ≠ 0 := by
  have hdrop : cells.drop (usedColumns cells) =
      cells.rtakeWhile fun cell => cell.chars = "" && cell.width ≠ 0 :=
    (congrArg (List.drop (usedColumns cells)) rdropWhile_append_rtakeWhile.symm).trans
      drop_left
  rw [hdrop] at h
  simpa using mem_rtakeWhile_imp h

theorem glyphs_of_blank (h : ∀ cell ∈ cells, cell.chars = "") :
    ∀ cell ∈ glyphs cells, cell.chars = "" := fun cell hcell =>
  h cell (mem_of_mem_filter hcell)

/-- What is behind a pair is none without its half. -/
theorem Paired.of_append {first last : List Cell} (h : Paired (first ++ last))
    (hlast : ∀ cell ∈ last, cell.width ≠ 0) : Paired first := by
  generalize hcells : first ++ last = cells at h
  induction h generalizing first with
  | nil =>
    rw [(append_eq_nil_iff.mp hcells).1]
    exact .nil
  | narrow hwidth _ ih =>
    cases first with
    | nil => exact .nil
    | cons =>
      injection hcells with hcell hcells
      subst hcell
      exact .narrow hwidth (ih hcells)
  | wide hwidth hhalf _ ih =>
    match first with
    | [] => exact .nil
    | [_] =>
      injection hcells with _ hcells
      have hlast' : last = _ := hcells
      rw [hlast'] at hlast
      exact absurd hhalf (hlast _ mem_cons_self)
    | _ :: _ :: first =>
      injection hcells with hcell hcells
      injection hcells with hhalf' hcells
      subst hcell hhalf'
      exact .wide hwidth hhalf (ih hcells)

/-! ### Groups -/

theorem groups_flatten (lines : List BufferLine) : (groups lines).flatten = lines := by
  induction lines with
  | nil => rfl
  | cons line rest ih =>
    cases rest with
    | nil => rfl
    | cons next =>
      rw [groups]
      split
      · split
        · next hnone =>
          rw [hnone] at ih
          cases ih
        · next hsome =>
          rw [hsome, flatten_cons] at ih
          rw [flatten_cons, cons_append, ih]
      rw [flatten_cons, ih]
      rfl

theorem groups_ne_nil (line : BufferLine) (rest : List BufferLine) :
    groups (line :: rest) ≠ [] := by
  intro h
  have hflatten := groups_flatten (line :: rest)
  rw [h] at hflatten
  cases hflatten

/-- A row that is not wrapped starts a group. -/
theorem groups_append {first last : List BufferLine}
    (h : ∀ line ∈ last.head?, line.isWrapped = false) :
    groups (first ++ last) = groups first ++ groups last := by
  induction first with
  | nil => rfl
  | cons line first ih =>
    cases first with
    | nil =>
      cases last with
      | nil => rfl
      | cons next last =>
        have hnext : next.isWrapped = false := h next rfl
        show groups (line :: next :: last) = [[line]] ++ groups (next :: last)
        rw [groups, hnext, if_neg Bool.false_ne_true]
        rfl
    | cons next first =>
      show groups (line :: next :: (first ++ last)) = _
      rw [groups, groups]
      have ih' : groups (next :: (first ++ last)) = groups (next :: first) ++ groups last := ih
      rw [ih']
      split
      · cases hgroups : groups (next :: first) with
        | nil => exact absurd hgroups (groups_ne_nil next first)
        | cons => rfl
      · rfl

theorem groups_wrapped {first : BufferLine} {rest : List BufferLine}
    (h : ∀ row ∈ rest, row.isWrapped = true) : groups (first :: rest) = [first :: rest] := by
  induction rest generalizing first with
  | nil => rfl
  | cons next rest ih =>
    rw [groups, if_pos (h next mem_cons_self), ih fun row hrow => h row (mem_cons_of_mem _ hrow)]

theorem groups_flatMap {others : List (List BufferLine)} {cut : List BufferLine → List BufferLine}
    (h : ∀ group ∈ others, ∃ first rest, cut group = first :: rest ∧ first.isWrapped = false ∧
      ∀ row ∈ rest, row.isWrapped = true) :
    groups (others.flatMap cut) = others.map cut := by
  induction others with
  | nil => rfl
  | cons group others ih =>
    obtain ⟨hgroup, hothers⟩ := forall_mem_cons.mp h
    obtain ⟨first, rest, hcut, -, hrest⟩ := hgroup
    have hhead : ∀ line ∈ (others.flatMap cut).head?, line.isWrapped = false := by
      intro line hline
      cases others with
      | nil => cases hline
      | cons next =>
        obtain ⟨first', rest', hcut', hunwrapped, -⟩ := hothers next mem_cons_self
        rw [flatMap_cons, hcut'] at hline
        cases hline
        exact hunwrapped
    -- the next group starts with a row that is not wrapped
    rw [flatMap_cons, groups_append hhead, ih hothers, hcut, groups_wrapped hrest, map_cons, hcut]
    rfl

variable (group : List BufferLine)

theorem exists_blank_groupCells :
    ∃ blank, group.flatMap BufferLine.cells = groupCells group ++ blank ∧
      ∀ cell ∈ blank, cell.chars = "" ∧ cell.width ≠ 0 := by
  match group with
  | [] => exact ⟨[], rfl, by rintro _ ⟨⟩⟩
  | [line] =>
    rw [flatMap_singleton, groupCells]
    split
    · exact ⟨[], (append_nil _).symm, by rintro _ ⟨⟩⟩
    exact ⟨line.cells.drop (usedColumns line.cells), (take_append_drop _ _).symm,
      fun _ hcell => of_mem_drop_usedColumns hcell⟩
  | first :: second :: rest => exact ⟨[], (append_nil _).symm, by rintro _ ⟨⟩⟩

theorem groupText_eq : groupText group = trimRight (glyphs (groupCells group)) := by
  obtain ⟨blank, hgroup, hblank⟩ := exists_blank_groupCells group
  rw [groupText, hgroup, glyphs_append]
  exact trimRight_append_blank (glyphs_of_blank fun cell hcell => (hblank cell hcell).1)

theorem paired_groupCells {group : List BufferLine}
    (h : ∀ line ∈ group, Paired line.cells) : Paired (groupCells group) := by
  obtain ⟨blank, hgroup, hblank⟩ := exists_blank_groupCells group
  have hall : Paired (group.flatMap BufferLine.cells) := by
    clear hgroup
    induction group with
    | nil => exact .nil
    | cons line group ih =>
      obtain ⟨hline, hrest⟩ := forall_mem_cons.mp h
      exact hline.append (ih hrest)
  rw [hgroup] at hall
  exact hall.of_append fun cell hcell => (hblank cell hcell).2

theorem paired_of_mem_groups {lines group : List BufferLine}
    (h : ∀ line ∈ lines, Paired line.cells) (hgroup : group ∈ groups lines) :
    Paired (groupCells group) := by
  refine paired_groupCells fun line hline => h line ?_
  rw [← groups_flatten lines]
  exact mem_flatten_of_mem hgroup hline

/-! ### Another width -/

section Layout

variable {columns : ℕ} {lines : List BufferLine}

theorem rowsOf_of_mem_groups (hcolumns : 0 < columns) (hpaired : ∀ line ∈ lines, Paired line.cells)
    (hunsplit : ∀ group ∈ groups lines, Unsplit columns (groupCells group))
    {group : List BufferLine} (hgroup : group ∈ groups lines) :
    RowsOf columns false (groupCells group) (rewrap columns (groupCells group)) :=
  (rewrap_spec hcolumns (paired_of_mem_groups hpaired hgroup) (hunsplit group hgroup)).1

theorem groups_layout (hcolumns : 0 < columns) (hpaired : ∀ line ∈ lines, Paired line.cells)
    (hunsplit : ∀ group ∈ groups lines, Unsplit columns (groupCells group)) :
    groups (layout columns lines) =
      (groups lines).map fun group => rewrap columns (groupCells group) :=
  groups_flatMap fun _ hgroup =>
    (rowsOf_of_mem_groups hcolumns hpaired hunsplit hgroup).exists_first

theorem logicalLines_layout (hcolumns : 0 < columns) (hpaired : ∀ line ∈ lines, Paired line.cells)
    (hunsplit : ∀ group ∈ groups lines, Unsplit columns (groupCells group)) :
    logicalLines (layout columns lines) = logicalLines lines := by
  rw [logicalLines, groups_layout hcolumns hpaired hunsplit, map_map, logicalLines]
  refine map_congr_left fun group hgroup => ?_
  obtain ⟨blank, hblank⟩ := (rowsOf_of_mem_groups hcolumns hpaired hunsplit hgroup).exists_blank
  show groupText (rewrap columns (groupCells group)) = groupText group
  rw [groupText, hblank, glyphs_append, glyphs_renew, glyphs_blank, groupText_eq]
  refine trimRight_append_blank fun cell hcell => ?_
  rw [eq_of_mem_replicate hcell]
  rfl

end Layout

/-! ### Blank rows at the end -/

variable {row : BufferLine}

theorem groupText_blank (h : isBlankRow row = true) : groupText [row] = [] := by
  have hused : usedColumns row.cells = 0 := by
    rw [isBlankRow, and_eq_true] at h
    exact of_decide_eq_true h.2
  rw [groupText, flatMap_singleton, trimRight, rdropWhile_eq_nil_iff]
  intro glyph hglyph
  refine decide_eq_true (glyphs_of_blank (fun cell hcell => ?_) glyph hglyph)
  have hunused : cell ∈ row.cells.drop (usedColumns row.cells) := by
    rwa [hused, drop_zero]
  exact (of_mem_drop_usedColumns hunused).1

theorem groups_concat {lines : List BufferLine} (h : isBlankRow row = true) :
    groups (lines ++ [row]) = groups lines ++ [[row]] := by
  refine groups_append fun line hline => ?_
  cases hline
  rw [isBlankRow, and_eq_true] at h
  simpa using h.1

theorem logicalLines_append_blank {lines blank : List BufferLine}
    (h : ∀ row ∈ blank, isBlankRow row = true) :
    withoutBlankEnd (logicalLines (lines ++ blank)) = withoutBlankEnd (logicalLines lines) := by
  induction blank using List.reverseRecOn with
  | nil => rw [append_nil]
  | append_singleton blank row ih =>
    have hrow := h row (mem_append_right _ (mem_singleton_self _))
    rw [← append_assoc, logicalLines, groups_concat hrow, map_append, map_singleton,
      groupText_blank hrow, withoutBlankEnd, rdropWhile_concat_pos _ _ _ (by simp)]
    exact ih fun other hother => h other (mem_append_left _ hother)

theorem isBlankRow_blankLine (columns : ℕ) : isBlankRow (blankLine columns) = true := by
  have hused : usedColumns (blankLine columns).cells = 0 := by
    rw [usedColumns, length_eq_zero_iff, rdropWhile_eq_nil_iff]
    intro cell hcell
    rw [eq_of_mem_replicate hcell]
    rfl
  rw [isBlankRow, hused]
  rfl

theorem popBlank_spec (rows cursor : ℕ) (lines : List BufferLine) :
    ∃ blank, lines = popBlank rows cursor lines ++ blank ∧
      (∀ row ∈ blank, isBlankRow row = true) ∧
      (cursor < lines.length → cursor < (popBlank rows cursor lines).length) := by
  induction hlength : lines.length using Nat.strong_induction_on generalizing lines with
  | _ length ih =>
    rw [popBlank]
    split
    · next hpop =>
      obtain ⟨hrows, hcursor, hlast⟩ := hpop
      obtain ⟨row, hrow, hisBlank⟩ := (Option.any_eq_true _ _).mp hlast
      have hconcat : lines.dropLast ++ [row] = lines := dropLast_append_getLast? row hrow
      have hless : lines.dropLast.length < length := by
        rw [length_dropLast]
        omega
      obtain ⟨blank, hblank, hall, hkept⟩ := ih lines.dropLast.length hless lines.dropLast rfl
      refine ⟨blank ++ [row], ?_, ?_, fun _ => hkept ?_⟩
      · rw [← append_assoc, ← hblank, hconcat]
      · intro other hother
        rcases mem_append.mp hother with hother | hother
        · exact hall other hother
        rw [mem_singleton.mp hother]
        exact hisBlank
      rw [length_dropLast]
      exact hcursor
    · exact ⟨[], (append_nil _).symm, by rintro _ ⟨⟩, fun hcursor => hlength.symm ▸ hcursor⟩

end BreadboardTui.Vterm
