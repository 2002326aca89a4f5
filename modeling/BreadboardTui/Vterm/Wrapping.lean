import BreadboardTui.Vterm.Terminal

/-!
# Rows and the cells in them

Cells in which every wide grapheme has its half go into rows of another width cell by cell, if no
wide grapheme stands across the end of a row.
-/

namespace BreadboardTui.Vterm

open List

/-- Every cell of width 2 is followed by one of width 0, and every cell of width 0 follows one of
width 2. -/
inductive Paired : List Cell → Prop where
  | nil : Paired []
  | narrow {cell : Cell} {rest : List Cell} (hwidth : cell.width = 1) (hrest : Paired rest) :
      Paired (cell :: rest)
  | wide {cell half : Cell} {rest : List Cell} (hwidth : cell.width = 2) (hhalf : half.width = 0)
      (hrest : Paired rest) : Paired (cell :: half :: rest)

/-- No row of so many columns starts with a half. -/
def Unsplit (columns : ℕ) (cells : List Cell) : Prop :=
  ∀ row cell, cells[row * columns]? = some cell → cell.width ≠ 0

/-- A half is written anew. -/
def renew (cell : Cell) : Cell := if cell.width = 0 then halfCell else cell

theorem renew_width (cell : Cell) : (renew cell).width = cell.width := by
  rw [renew]
  split
  · next hwidth => rw [hwidth]; rfl
  · rfl

theorem renew_of_ne {cell : Cell} (h : cell.width ≠ 0) : renew cell = cell :=
  if_neg h

theorem Paired.append {first last : List Cell} (hfirst : Paired first) (hlast : Paired last) :
    Paired (first ++ last) := by
  induction hfirst with
  | nil => exact hlast
  | narrow hwidth _ ih => exact .narrow hwidth ih
  | wide hwidth hhalf _ ih => exact .wide hwidth hhalf ih

variable {cells : List Cell}

/-- A row takes what fits, if it does not end within a wide grapheme. -/
theorem fill_eq {columns target : ℕ} (hpaired : Paired cells) (htarget : target ≤ columns)
    (hunsplit : ∀ cell, cells[columns - target]? = some cell → cell.width ≠ 0) :
    fill columns target cells =
        ((cells.take (columns - target)).map renew, cells.drop (columns - target)) ∧
      Paired (cells.drop (columns - target)) := by
  induction hpaired generalizing target with
  | nil =>
    rw [fill, take_nil, drop_nil]
    exact ⟨rfl, .nil⟩
  | @narrow cell rest hwidth hrest ih =>
    rw [fill]
    by_cases hfull : columns ≤ target
    · rw [if_pos hfull, Nat.sub_eq_zero_of_le hfull]
      exact ⟨rfl, .narrow hwidth hrest⟩
    have hsub : columns - target = columns - (target + 1) + 1 := by omega
    rw [hsub, getElem?_cons_succ] at hunsplit
    obtain ⟨hfill, hdrop⟩ := ih (by omega) hunsplit
    rw [if_neg hfull, if_neg (by omega), if_neg (by omega), hfill, hsub, take_succ_cons,
      drop_succ_cons, map_cons, renew_of_ne (by omega)]
    exact ⟨rfl, hdrop⟩
  | @wide cell half rest hwidth hhalf hrest ih =>
    rw [fill]
    by_cases hfull : columns ≤ target
    · rw [if_pos hfull, Nat.sub_eq_zero_of_le hfull]
      exact ⟨rfl, .wide hwidth hhalf hrest⟩
    rw [if_neg hfull, if_neg (by omega), if_pos hwidth]
    by_cases hlast : target = columns - 1
    · -- the half would be the first cell of the next row
      have hone : columns - target = 1 := by omega
      rw [hone] at hunsplit
      exact absurd hhalf (hunsplit half rfl)
    -- both cells of the character fit
    have hsub : columns - target = columns - (target + 2) + 1 + 1 := by omega
    rw [hsub, getElem?_cons_succ, getElem?_cons_succ] at hunsplit
    obtain ⟨hfill, hdrop⟩ := ih (by omega) hunsplit
    have hnext : (half :: rest).drop 1 = rest := rfl
    have hhalf' : renew half = halfCell := if_pos hhalf
    rw [if_neg hlast, hnext, hfill, hsub, take_succ_cons, take_succ_cons,
      drop_succ_cons, drop_succ_cons, map_cons, map_cons,
      renew_of_ne (by omega), hhalf']
    exact ⟨rfl, hdrop⟩

/-- Rows that hold cells and blank ones behind them, the first of which is wrapped or not. -/
structure RowsOf (columns : ℕ) (isWrapped : Bool) (cells : List Cell) (rows : List BufferLine) :
    Prop where
  exists_first : ∃ first rest, rows = first :: rest ∧ first.isWrapped = isWrapped ∧
    ∀ row ∈ rest, row.isWrapped = true
  length_cells : ∀ row ∈ rows, row.cells.length = columns
  exists_blank : ∃ blank, rows.flatMap BufferLine.cells =
    cells.map renew ++ List.replicate blank blankCell

variable {columns : ℕ}

theorem length_flatMap_take {rows : List BufferLine}
    (h : ∀ row ∈ rows, row.cells.length = columns) {count : ℕ} (hcount : count ≤ rows.length) :
    ((rows.take count).flatMap BufferLine.cells).length = count * columns := by
  induction rows generalizing count with
  | nil =>
    obtain rfl : count = 0 := Nat.le_zero.mp hcount
    rw [take_zero, Nat.zero_mul]
    rfl
  | cons row rows ih =>
    obtain ⟨hrow, hrows⟩ := forall_mem_cons.mp h
    cases count with
    | zero =>
      rw [take_zero, Nat.zero_mul]
      rfl
    | succ =>
      rw [take_succ_cons, flatMap_cons, length_append, hrow, Nat.succ_mul,
        Nat.add_comm, ih hrows (Nat.le_of_succ_le_succ hcount)]

/-- How many rows cells take. -/
def rowCount (columns length : ℕ) : ℕ := max 1 ((length + (columns - 1)) / columns)

theorem wrapRows_spec (hcolumns : 0 < columns) (isWrapped : Bool)
    (hpaired : Paired cells) (hunsplit : Unsplit columns cells)
    (hne : cells ≠ []) :
    RowsOf columns isWrapped cells (wrapRows columns isWrapped cells) ∧
      (wrapRows columns isWrapped cells).length = (cells.length + (columns - 1)) / columns := by
  induction hlength : cells.length using Nat.strong_induction_on generalizing cells isWrapped with
  | _ length ih =>
    have hpos : 0 < cells.length := length_pos_iff.mpr hne
    have hfirst : ∀ cell, cells[columns - 0]? = some cell → cell.width ≠ 0 := by
      intro cell hcell
      refine hunsplit 1 cell ?_
      rwa [Nat.one_mul]
    obtain ⟨hfill, hrest⟩ := fill_eq hpaired (Nat.zero_le columns) hfirst
    rw [Nat.sub_zero] at hfill hrest
    have hless : (cells.drop columns).length < cells.length := by
      rw [length_drop]
      omega
    rw [wrapRows, if_neg hne, hfill]
    rw [if_pos hless]
    have hrow : ((cells.take columns).map renew ++
        List.replicate (columns - ((cells.take columns).map renew).length) blankCell).length =
          columns := by
      rw [length_append, length_replicate, length_map, length_take]
      omega
    by_cases hlast : cells.drop columns = []
    · have hle : cells.length ≤ columns := drop_eq_nil_iff.mp hlast
      rw [hlast, wrapRows, if_pos rfl]
      refine ⟨⟨⟨_, [], rfl, rfl, by rintro _ ⟨⟩⟩, ?_, ?_⟩, ?_⟩
      · rw [forall_mem_singleton]
        exact hrow
      · refine ⟨columns - ((cells.take columns).map renew).length, ?_⟩
        rw [flatMap_singleton, take_of_length_le hle]
      rw [length_singleton, ← hlength]
      symm
      rw [Nat.div_eq_iff hcolumns]
      omega
    have hunsplit' : Unsplit columns (cells.drop columns) := by
      intro row cell hcell
      rw [getElem?_drop] at hcell
      refine hunsplit (row + 1) cell ?_
      rwa [Nat.succ_mul, Nat.add_comm]
    obtain ⟨hrows, hcount⟩ := ih (cells.drop columns).length (by omega) true
      hrest hunsplit' hlast rfl
    have hmore : columns < cells.length := by
      by_contra hle
      exact hlast (drop_eq_nil_iff.mpr (not_lt.mp hle))
    obtain ⟨first, rest, hcons, hwrapped, hall⟩ := hrows.exists_first
    obtain ⟨blank, hblank⟩ := hrows.exists_blank
    -- a row that is not the last is full
    have hexact : columns - ((cells.take columns).map renew).length = 0 := by
      rw [length_map, length_take]
      omega
    refine ⟨⟨⟨_, _, rfl, rfl, ?_⟩, ?_, blank, ?_⟩, ?_⟩
    · rw [hcons, forall_mem_cons]
      exact ⟨hwrapped, hall⟩
    · rw [forall_mem_cons]
      exact ⟨hrow, hrows.length_cells⟩
    · rw [flatMap_cons, hblank, hexact, replicate_zero, append_nil,
        ← append_assoc, ← map_append, take_append_drop]
    rw [length_cons, hcount, length_drop, ← hlength]
    have hsplit : cells.length + (columns - 1) =
        cells.length - columns + (columns - 1) + columns := by omega
    rw [hsplit, Nat.add_div_right _ hcolumns]

theorem rewrap_spec (hcolumns : 0 < columns)
    (hpaired : Paired cells) (hunsplit : Unsplit columns cells) :
    RowsOf columns false cells (rewrap columns cells) ∧
      (rewrap columns cells).length = rowCount columns cells.length := by
  rw [rewrap]
  split
  · next hnil =>
    subst hnil
    refine ⟨⟨⟨_, [], rfl, rfl, by rintro _ ⟨⟩⟩, ?_, columns, ?_⟩, ?_⟩
    · rw [forall_mem_singleton]
      exact length_replicate
    · rw [flatMap_singleton]
      rfl
    rw [rowCount, length_nil, Nat.zero_add, Nat.div_eq_of_lt (by omega)]
    rfl
  next hne =>
  obtain ⟨hrows, hcount⟩ := wrapRows_spec hcolumns false hpaired hunsplit hne
  refine ⟨hrows, ?_⟩
  have hpos : 0 < cells.length := length_pos_iff.mpr hne
  have hone : 1 ≤ (cells.length + (columns - 1)) / columns := by
    rw [Nat.one_le_div_iff hcolumns]
    omega
  rw [hcount, rowCount]
  omega

end BreadboardTui.Vterm
