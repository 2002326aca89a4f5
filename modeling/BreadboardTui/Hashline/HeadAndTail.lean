import BreadboardTui.Hashline.Materialize
import BreadboardTui.Hashline.Tokenizer
import BreadboardTui.Lib.Blocks
import Mathlib.Data.List.Infix

/-!
# Inserts at the head and at the tail

A text that ends with a newline splits into its lines and an empty row, its sentinel. The rows for
the head and the tail are put around the rows that the anchored edits leave, and what is a sentinel
there is told from the rows alone: an empty row that is the only one, or the last one.
-/

namespace BreadboardTui.Hashline.Apply

open List

/-! ### Texts and rows -/

/-- A row of a text. -/
@[ext]
structure Row where
  units : Units
  newline_notMem : 10 ∉ units
  deriving DecidableEq

instance : Inhabited Row := ⟨⟨[], not_mem_nil⟩⟩

/-- `text.split("\n")`. -/
def splitRows (text : Units) : List Row :=
  (text.splitOn 10).pmap Row.mk fun _ h => notMem_of_mem_splitOn h

/-- `rows.join("\n")`. -/
def joinRows (rows : List Row) : Units := [10].intercalate (rows.map Row.units)

variable (text : Units)

theorem map_splitRows : (splitRows text).map Row.units = text.splitOn 10 := by
  rw [splitRows, map_pmap]
  exact pmap_eq_self.mpr fun _ _ => rfl

theorem splitRows_ne_nil : splitRows text ≠ [] := by
  intro hnil
  refine splitOn_ne_nil 10 text ?_
  rw [← map_splitRows, hnil]
  rfl

theorem joinRows_splitRows : joinRows (splitRows text) = text := by
  rw [joinRows, map_splitRows]
  exact intercalate_splitOn 10

variable {rows : List Row}

theorem splitOn_joinRows (h : rows ≠ []) : (joinRows rows).splitOn 10 = rows.map Row.units := by
  refine splitOn_intercalate 10 ?_ fun hnil => h (map_eq_nil_iff.mp hnil)
  intro row hrow
  obtain ⟨row, -, rfl⟩ := mem_map.mp hrow
  exact row.newline_notMem

theorem joinRows_inj {rows' : List Row} (h : rows ≠ []) (h' : rows' ≠ []) :
    joinRows rows = joinRows rows' ↔ rows = rows' := by
  constructor
  · intro heq
    have hsplit := congrArg (List.splitOn 10) heq
    rw [splitOn_joinRows h, splitOn_joinRows h'] at hsplit
    have hinjective : Function.Injective Row.units := fun _ _ h => Row.ext h
    exact map_injective_iff.mpr hinjective hsplit
  rintro rfl
  rfl

theorem joinRows_concat_default (h : rows ≠ []) :
    joinRows (rows ++ [default]) = joinRows rows ++ [10] := by
  rw [joinRows, map_append]
  exact intercalate_append (fun hnil => h (map_eq_nil_iff.mp hnil)) (cons_ne_nil _ _)

/-- A text that ends with a newline has a sentinel. -/
theorem getLast?_eq_newline_iff :
    text.getLast? = some 10 ↔ ∃ rows, rows ≠ [] ∧ splitRows text = rows ++ [default] := by
  constructor
  · intro hlast
    obtain ⟨above, rfl⟩ := getLast?_eq_some_iff.mp hlast
    refine ⟨splitRows above, splitRows_ne_nil above, ?_⟩
    rw [← joinRows_inj (splitRows_ne_nil _) (by simp), joinRows_splitRows,
      joinRows_concat_default (splitRows_ne_nil above), joinRows_splitRows]
  rintro ⟨rows, hrows, hsplit⟩
  rw [← joinRows_splitRows text, hsplit, joinRows_concat_default hrows, getLast?_concat]

theorem splitRows_eq_default_iff : splitRows text = [default] ↔ text = [] := by
  constructor
  · intro h
    rw [← joinRows_splitRows text, h]
    rfl
  rintro rfl
  rfl

/-! ### The ends of the rows -/

theorem concat_eq_cons_iff {α : Type} (row : α) (rows : List α) :
    rows ++ [row] = row :: rows ↔ ∀ other ∈ rows, other = row := by
  induction rows with
  | nil => exact ⟨fun _ _ h => absurd h not_mem_nil, fun _ => rfl⟩
  | cons first rows ih =>
    rw [cons_append, List.cons.injEq, forall_mem_cons]
    constructor
    · rintro ⟨rfl, hrest⟩
      exact ⟨rfl, ih.mp hrest⟩
    rintro ⟨rfl, hrest⟩
    exact ⟨rfl, ih.mpr hrest⟩

section Ends

variable {α : Type} [Inhabited α] [DecidableEq α]

/-- What is put at the tail follows the rows, unless one of them is taken for a sentinel. -/
theorem insertAtEnd_eq_append_iff (above rows : List α) :
    (insertAtEnd above rows).1 = above ++ rows ↔
      (rows ≠ [] → above ≠ [default]) ∧
        (above.getLast? = some default → ∀ row ∈ rows, row = default) := by
  rw [insertAtEnd]
  split
  · next hnil =>
    rw [hnil]
    simp
  next hne =>
  split
  · next hone =>
    rw [hone]
    simp [hne]
  next hmany =>
  rw [and_iff_right fun _ => hmany]
  by_cases hlast : above.getLast? = some default
  · obtain ⟨front, rfl⟩ := getLast?_eq_some_iff.mp hlast
    have hrows := concat_eq_cons_iff default rows
    simp [hrows]
  · simp [hlast]

variable {above : List α}

/-- The row at the tail comes in front of an empty row that is not alone. -/
theorem insertAtEnd_concat_default (h : above ≠ []) (rows : List α) :
    (insertAtEnd (above ++ [default]) rows).1 = above ++ rows ++ [default] := by
  rw [insertAtEnd]
  split
  · next hnil => rw [hnil, append_nil]
  rw [if_neg (by simpa using h)]
  simp

theorem insertAtStart_of_ne {lines : List α} (h : lines ≠ [default]) (rows : List α) :
    insertAtStart lines rows = rows ++ lines := by
  rw [insertAtStart, if_neg h]
  split
  · next hnil => rw [hnil, nil_append]
  · rfl

variable {head tail : List α}

/-- An empty row that is alone makes room for what is inserted. -/
theorem insertAtEnd_insertAtStart_default (h : head ≠ [] ∨ tail ≠ []) :
    (insertAtEnd (insertAtStart [default] head) tail).1 = (insertAtEnd head tail).1 := by
  rw [insertAtStart, if_pos rfl]
  split
  · next hnil =>
    have htail : tail ≠ [] := h.resolve_left fun hne => hne hnil
    simp [insertAtEnd, hnil, htail]
  · rfl

theorem length_insertAtEnd_le (above rows : List α) :
    (insertAtEnd above rows).1.length ≤ above.length + rows.length := by
  rw [insertAtEnd]
  split
  · exact Nat.le_add_right _ _
  split
  · exact Nat.le_add_left _ _
  rw [length_append, length_append, length_take, length_drop]
  omega

/-- Nothing is lost at the tail, where the rows are not a single empty one. -/
theorem length_insertAtEnd (h : above ≠ [default]) (rows : List α) :
    (insertAtEnd above rows).1.length = above.length + rows.length := by
  rw [insertAtEnd]
  split
  · next hnil =>
    rw [hnil]
    rfl
  simp only [length_append, length_take, length_drop]
  split <;> omega

theorem insertAtEnd_insertAtStart_ne_nil (h : head ≠ [] ∨ tail ≠ [])
    (lines : List α) : (insertAtEnd (insertAtStart lines head) tail).1 ≠ [] := by
  by_cases htail : tail = []
  · have hhead := h.resolve_right fun hne => hne htail
    rw [insertAtEnd, if_pos htail, insertAtStart, if_neg hhead]
    split
    · exact hhead
    · simp [hhead]
  rw [insertAtEnd, if_neg htail]
  split
  · exact htail
  · simp [htail]

/-- The rows around those of the anchored edits, of a file without a sentinel. -/
theorem insertAtEnd_insertAtStart_iff (h : head ≠ [] ∨ tail ≠ []) (lines : List α) :
    (insertAtEnd (insertAtStart lines head) tail).1 = head ++ lines ++ tail ↔
      lines ≠ [default] ∧ (tail ≠ [] → head ++ lines ≠ [default]) ∧
        ((head ++ lines).getLast? = some default → ∀ row ∈ tail, row = default) := by
  by_cases hlines : lines = [default]
  · have hshort := length_insertAtEnd_le head tail
    rw [hlines, insertAtEnd_insertAtStart_default h]
    constructor
    · intro heq
      have hlength := congrArg List.length heq
      simp only [length_append, length_singleton] at hlength
      omega
    · exact fun hclear => absurd rfl hclear.1
  · rw [insertAtStart_of_ne hlines, insertAtEnd_eq_append_iff, and_iff_right hlines]

/-- The rows around those of the anchored edits, where the sentinel is among these. -/
theorem insertAtEnd_insertAtStart_sentinel_iff (h : head ≠ [] ∨ tail ≠ []) (above below : List α) :
    (insertAtEnd (insertAtStart (above ++ default :: below) head) tail).1 =
        head ++ (above ++ below) ++ tail ++ [default] ↔
      above ++ below ≠ [] ∧ ∀ row ∈ below, row = default := by
  by_cases hempty : above ++ below = []
  · obtain ⟨rfl, rfl⟩ := append_eq_nil_iff.mp hempty
    have hshort := length_insertAtEnd_le head tail
    rw [nil_append, insertAtEnd_insertAtStart_default h]
    constructor
    · intro heq
      have hlength := congrArg List.length heq
      simp only [length_append, length_singleton, length_nil] at hlength
      omega
    · exact fun hclear => absurd rfl hclear.1
  have hlines : above ++ default :: below ≠ [default] := by
    intro hone
    have hlength := congrArg List.length hone
    rw [length_append, length_cons, length_singleton] at hlength
    refine hempty (eq_nil_of_length_eq_zero ?_)
    rw [length_append]
    omega
  have hrows := concat_eq_cons_iff default below
  rw [insertAtStart_of_ne hlines, and_iff_right hempty, ← hrows]
  rcases eq_nil_or_concat' below with rfl | ⟨front, last, rfl⟩
  · have habove : head ++ above ≠ [] := by
      intro hnil
      rw [(append_eq_nil_iff.mp hnil).2, append_nil] at hempty
      exact hempty rfl
    have hend := insertAtEnd_concat_default habove tail
    rw [append_assoc] at hend
    rw [hend, append_nil]
    exact iff_of_true rfl rfl
  have hend : head ++ (above ++ default :: (front ++ [last])) =
      head ++ above ++ default :: front ++ [last] := by
    simp
  rw [hend, hrows]
  by_cases hlast : last = default
  · subst hlast
    rw [insertAtEnd_concat_default (by simp)]
    have hfront := concat_eq_cons_iff default front
    have hcancel : default :: (front ++ (tail ++ [default])) =
        front ++ default :: (tail ++ [default]) ↔ default :: front = front ++ [default] := by
      rw [← cons_append, append_cons front]
      exact append_left_inj _
    simp only [append_assoc, append_cancel_left_eq, cons_append, nil_append]
    rw [hcancel, eq_comm, hfront, forall_mem_append, forall_mem_singleton, and_iff_left rfl]
  have hother : (head ++ above ++ default :: front ++ [last]).getLast? ≠ some default := by
    rw [getLast?_concat]
    exact fun heq => hlast (Option.some.inj heq)
  have hend : (insertAtEnd (head ++ above ++ default :: front ++ [last]) tail).1 =
      head ++ above ++ default :: front ++ [last] ++ tail := by
    rw [insertAtEnd_eq_append_iff]
    exact ⟨fun _ hone => hother (by rw [hone]; rfl), fun heq => absurd heq hother⟩
  have hmem : last ∈ front ++ [last] := mem_append_right _ mem_cons_self
  rw [hend]
  constructor
  · intro heq
    have hall := (concat_eq_cons_iff default (front ++ [last] ++ tail)).mp (by
      simpa using heq.symm)
    exact absurd (hall last (mem_append_left _ hmem)) hlast
  · exact fun hall => absurd (hall last hmem) hlast

end Ends

/-! ### The sentinel -/

section Sentinel

variable {α : Type}

/-- What the anchored edits leave of a file without its last line. -/
def onePassWithoutLast (lines : List α) (edits : List (AppliedEdit α)) : List α :=
  onePass lines (edits ++ [.delete lines.length 0])

/-- The rows that come before the line itself. -/
def rowsBefore (bucket : List (AppliedEdit α)) : List α :=
  bucket.filterMap AppliedEdit.beforeRow ++ bucket.filterMap AppliedEdit.replacementRow

theorem replaceLine_of_kept {bucket : List (AppliedEdit α)}
    (h : bucket.any AppliedEdit.isDelete = false) (line : α) :
    replaceLine bucket line =
      rowsBefore bucket ++ line :: bucket.filterMap AppliedEdit.afterRow := by
  rw [replaceLine, h, rowsBefore, if_neg Bool.false_ne_true, append_assoc (_ ++ _)]
  rfl

theorem replaceLine_delete (bucket : List (AppliedEdit α)) (line : α) (last : ℕ) :
    replaceLine (bucket ++ [.delete last 0]) line =
      rowsBefore bucket ++ bucket.filterMap AppliedEdit.afterRow := by
  have hnone {row : AppliedEdit α → Option α} (h : row (AppliedEdit.delete last 0) = none) :
      (bucket ++ [AppliedEdit.delete last 0]).filterMap row = bucket.filterMap row := by
    rw [filterMap_append, filterMap_cons, h]
    exact append_nil _
  have hany : (bucket ++ [AppliedEdit.delete last 0]).any AppliedEdit.isDelete = true := by
    rw [any_append]
    exact Bool.or_true _
  rw [replaceLine, hnone rfl, hnone rfl, hnone rfl, hany, if_pos rfl, append_nil, rowsBefore]

theorem editsAt_concat_delete (edits : List (AppliedEdit α)) (last line : ℕ) :
    editsAt (edits ++ [.delete last 0]) line =
      if line = last then editsAt edits line ++ [.delete last 0] else editsAt edits line := by
  rw [editsAt, filter_append]
  split
  · next heq => simp [editsAt, AppliedEdit.anchors, heq]
  · next hne => simp [editsAt, AppliedEdit.anchors, hne]

/-- The rows of a file with and without its last line, which no edit deletes. -/
theorem onePass_concat {lines : List α} (last : α) {edits : List (AppliedEdit α)}
    (h : isDeleted edits (lines.length + 1) = false) :
    ∃ above, onePass (lines ++ [last]) edits = above ++
        last :: (editsAt edits (lines.length + 1)).filterMap AppliedEdit.afterRow ∧
      onePassWithoutLast (lines ++ [last]) edits = above ++
        (editsAt edits (lines.length + 1)).filterMap AppliedEdit.afterRow := by
  have hlength : (lines ++ [last]).length = lines.length + 1 := length_append
  refine ⟨pieces (editsAt edits) 1 lines ++ rowsBefore (editsAt edits (lines.length + 1)), ?_, ?_⟩
  · rw [onePass_eq_pieces, pieces_append, pieces_cons, add_comm 1, replaceLine_of_kept h,
      pieces_nil, append_nil, append_assoc]
  have habove : pieces (editsAt (edits ++ [.delete (lines.length + 1) 0])) 1 lines =
      pieces (editsAt edits) 1 lines := by
    refine pieces_congr fun line _ hline => ?_
    rw [editsAt_concat_delete, if_neg (by omega)]
  rw [onePassWithoutLast, hlength, onePass_eq_pieces, pieces_append, pieces_cons,
    add_comm 1, habove, editsAt_concat_delete, if_pos rfl, replaceLine_delete,
    pieces_nil, append_nil, append_assoc]

variable [Inhabited α] [DecidableEq α]

/-- The line of the sentinel of a text that ends with a newline, else zero. -/
def trailingPhantomLine (fileLines : List α) : ℕ :=
  if 1 < fileLines.length ∧ fileLines.getLast? = some default then fileLines.length else 0

def dropTrailingPhantomDeletes (edits : List (AppliedEdit α)) (fileLines : List α) :
    List (AppliedEdit α) :=
  let phantomLine := trailingPhantomLine fileLines
  if phantomLine = 0 then edits
  else edits.filter fun edit => !edit.isDelete || edit.anchors != [phantomLine]

variable {lines : List α}

/-- The sentinel is never deleted. -/
theorem isDeleted_dropTrailingPhantomDeletes (h : lines ≠ []) (edits : List (AppliedEdit α)) :
    isDeleted (dropTrailingPhantomDeletes edits (lines ++ [default])) (lines.length + 1) =
      false := by
  have hphantom : trailingPhantomLine (lines ++ [default]) = lines.length + 1 := by
    have hpos := length_pos_of_ne_nil h
    have hlength : (lines ++ [default]).length = lines.length + 1 := length_append
    rw [trailingPhantomLine, if_pos ⟨by omega, getLast?_concat⟩, hlength]
  rw [isDeleted, dropTrailingPhantomDeletes, hphantom, any_eq_false]
  intro edit hedit hdelete
  obtain ⟨hmem, hanchor⟩ := mem_filter.mp hedit
  have hkept := (mem_filter.mp hmem).2
  cases edit with
  | insert => exact Bool.false_ne_true hdelete
  | delete =>
    simp [AppliedEdit.anchors] at hanchor
    simp [AppliedEdit.anchors, AppliedEdit.isDelete, hanchor] at hkept

theorem mem_dropTrailingPhantomDeletes {edits : List (AppliedEdit α)}
    {edit : AppliedEdit α} (h : edit ∈ dropTrailingPhantomDeletes edits lines) : edit ∈ edits := by
  simp only [dropTrailingPhantomDeletes] at h
  split at h
  · exact h
  · exact mem_of_mem_filter h

/-- What is spliced, before the rows for the head and the tail are put around it. -/
theorem lines_materializeEdits {edits : List (AppliedEdit α)} (h : InBounds lines.length edits) :
    (materializeEdits lines edits).lines =
      (insertAtEnd (insertAtStart (onePass lines edits) (edits.filterMap AppliedEdit.bofRow))
        (edits.filterMap AppliedEdit.eofRow)).1 := by
  rw [materializeEdits, foldl_bottomUp h]

end Sentinel

/-! ### Head and tail -/

/-- The result has the rows for the head, the rows that the anchored edits leave, the rows for the
tail, and the sentinel if the text ended with a newline. The only row of an empty text may make
room for what is inserted. -/
def LandsAtEnds (originalText : Units) (edits : List (AppliedEdit Row)) (text : Units) : Prop :=
  let head := edits.filterMap AppliedEdit.bofRow
  let tail := edits.filterMap AppliedEdit.eofRow
  if originalText.getLast? = some 10 then
    text = joinRows (head ++ onePassWithoutLast (splitRows originalText) edits ++ tail ++ [default])
  else
    text = joinRows (head ++ onePass (splitRows originalText) edits ++ tail) ∨
      originalText = [] ∧ isDeleted edits 1 = false ∧
        text = joinRows (head ++ onePassWithoutLast (splitRows originalText) edits ++ tail)

/-- A text that ends with a newline keeps another row, and all rows after its sentinel are empty.
The rows of another text are not left as a single empty row, unless the text is empty and stays
so; and a row that comes to be last is empty only where all rows for the tail are. -/
def EndsAreClear (originalText : Units) (edits : List (AppliedEdit Row)) : Prop :=
  let head := edits.filterMap AppliedEdit.bofRow
  let tail := edits.filterMap AppliedEdit.eofRow
  let lines := splitRows originalText
  let isUntouched := originalText = [] ∧ editsAt edits 1 = []
  let above := if isUntouched then head else head ++ onePass lines edits
  if originalText.getLast? = some 10 then
    onePassWithoutLast lines edits ≠ [] ∧
      ∀ row ∈ (editsAt edits lines.length).filterMap AppliedEdit.afterRow, row = default
  else
    (isUntouched ∨ onePass lines edits ≠ [default]) ∧ (tail ≠ [] → above ≠ [default]) ∧
      (above.getLast? = some default → ∀ row ∈ tail, row = default)

theorem filterMap_dropTrailingPhantomDeletes (row : AppliedEdit Row → Option Row)
    (h : ∀ line lineNum, row (.delete line lineNum) = none) (edits : List (AppliedEdit Row))
    (lines : List Row) :
    (dropTrailingPhantomDeletes edits lines).filterMap row = edits.filterMap row := by
  simp only [dropTrailingPhantomDeletes]
  split
  · rfl
  rw [filterMap_filter]
  refine filterMap_congr fun edit _ => ?_
  split
  · rfl
  next hdropped =>
  cases edit with
  | insert => exact absurd rfl hdropped
  | delete line lineNum => exact (h line lineNum).symm

variable {edits : List (AppliedEdit Row)}

/-- The only row of an empty text stays alone exactly where no edit is anchored on it. -/
theorem onePass_default_iff (h : isDeleted edits 1 = false) :
    onePass [default] edits = [default] ↔ editsAt edits 1 = [] := by
  have hone : onePass [default] edits = rowsBefore (editsAt edits 1) ++
      default :: (editsAt edits 1).filterMap AppliedEdit.afterRow := by
    rw [onePass_eq_pieces, pieces_cons, pieces_nil, append_nil, replaceLine_of_kept h]
  rw [hone]
  constructor
  · intro heq
    have hlength := congrArg List.length heq
    have hperm := (insertedRows_perm (editsAt edits 1)).length_eq
    rw [length_append, length_cons, length_singleton] at hlength
    rw [insertedRows, ← rowsBefore, length_append] at hperm
    have hnone : (editsAt edits 1).filterMap AppliedEdit.text = [] :=
      eq_nil_of_length_eq_zero (by omega)
    rw [eq_nil_iff_forall_not_mem]
    intro edit hedit
    have htext := filterMap_eq_nil_iff.mp hnone edit hedit
    have hkept := any_eq_false.mp h edit hedit
    cases edit with
    | insert _ text => exact Option.some_ne_none text htext
    | delete => exact hkept rfl
  intro hnil
  rw [hnil]
  rfl

/-- Without its only row, an empty text has one row less. -/
theorem length_onePassWithoutLast (h : isDeleted edits 1 = false) :
    (onePass [default] edits).length = (onePassWithoutLast [default] edits).length + 1 := by
  obtain ⟨above, hwith, hwithout⟩ := @onePass_concat Row [] default edits h
  rw [nil_append] at hwith hwithout
  rw [hwith, hwithout, length_append, length_append, length_cons]
  omega

/-- The rows for the head and the tail are where they belong exactly if none of the rows is taken
for a sentinel. -/
theorem landsAtEnds_iff {originalText : Units} {edits : List (AppliedEdit Row)}
    (hbounds : InBounds (splitRows originalText).length edits)
    (hends : edits.filterMap AppliedEdit.bofRow ≠ [] ∨ edits.filterMap AppliedEdit.eofRow ≠ []) :
    LandsAtEnds originalText (dropTrailingPhantomDeletes edits (splitRows originalText))
        (joinRows (materializeEdits (splitRows originalText)
          (dropTrailingPhantomDeletes edits (splitRows originalText))).lines) ↔
      EndsAreClear originalText (dropTrailingPhantomDeletes edits (splitRows originalText)) := by
  have hsentinel : ∀ rows, rows ≠ [] → splitRows originalText = rows ++ [default] →
      isDeleted (dropTrailingPhantomDeletes edits (splitRows originalText)) (rows.length + 1) =
        false := by
    intro rows hrows hsplit
    rw [hsplit]
    exact isDeleted_dropTrailingPhantomDeletes hrows edits
  rw [← filterMap_dropTrailingPhantomDeletes AppliedEdit.bofRow (fun _ _ => rfl) edits
      (splitRows originalText),
    ← filterMap_dropTrailingPhantomDeletes AppliedEdit.eofRow (fun _ _ => rfl) edits
      (splitRows originalText)] at hends
  have hkept : InBounds (splitRows originalText).length
      (dropTrailingPhantomDeletes edits (splitRows originalText)) := fun edit hedit =>
    hbounds edit (mem_dropTrailingPhantomDeletes hedit)
  generalize dropTrailingPhantomDeletes edits (splitRows originalText) = kept at *
  rw [lines_materializeEdits hkept, LandsAtEnds, EndsAreClear]
  generalize kept.filterMap AppliedEdit.bofRow = head at *
  generalize kept.filterMap AppliedEdit.eofRow = tail at *
  have hne := insertAtEnd_insertAtStart_ne_nil hends (onePass (splitRows originalText) kept)
  by_cases hnewline : originalText.getLast? = some 10
  · obtain ⟨rows, hrows, hsplit⟩ := (getLast?_eq_newline_iff originalText).mp hnewline
    obtain ⟨above, hwith, hwithout⟩ := onePass_concat default (hsentinel rows hrows hsplit)
    have hlength : (rows ++ [(default : Row)]).length = rows.length + 1 := length_append
    rw [hsplit] at hne ⊢
    rw [if_pos hnewline, if_pos hnewline, joinRows_inj hne (by simp), hwith, hwithout, hlength]
    exact insertAtEnd_insertAtStart_sentinel_iff hends above _
  have hsome (rows : List Row) : head ++ rows ++ tail ≠ [] := by
    rcases hends with hhead | htail
    · simp [hhead]
    · simp [htail]
  rw [if_neg hnewline, if_neg hnewline, joinRows_inj hne (hsome _), joinRows_inj hne (hsome _)]
  by_cases huntouched : originalText = [] ∧ editsAt kept 1 = []
  · -- the row of the empty text is left alone, and makes room
    obtain ⟨rfl, hnil⟩ := huntouched
    have hundeleted : isDeleted kept 1 = false := by
      rw [isDeleted, hnil]
      rfl
    have hsplit : splitRows [] = [default] := (splitRows_eq_default_iff []).mpr rfl
    have hone := (onePass_default_iff hundeleted).mpr hnil
    have hlength := length_onePassWithoutLast hundeleted
    rw [hone, length_singleton] at hlength
    have hnone : onePassWithoutLast [default] kept = [] := eq_nil_of_length_eq_zero (by omega)
    have hlong : (insertAtEnd head tail).1 ≠ head ++ [default] ++ tail := by
      intro heq
      have hshort := length_insertAtEnd_le head tail
      rw [heq, length_append, length_append, length_singleton] at hshort
      omega
    rw [hsplit, hone, hnone, insertAtEnd_insertAtStart_default hends, if_pos ⟨rfl, hnil⟩,
      or_iff_right hlong, and_iff_right rfl, and_iff_right hundeleted, append_nil,
      insertAtEnd_eq_append_iff]
    exact (and_iff_right (.inl ⟨rfl, hnil⟩)).symm
  have hlast : ¬(originalText = [] ∧ isDeleted kept 1 = false ∧
      (insertAtEnd (insertAtStart (onePass (splitRows originalText) kept) head) tail).1 =
        head ++ onePassWithoutLast (splitRows originalText) kept ++ tail) := by
    rintro ⟨rfl, hundeleted, heq⟩
    have hsplit : splitRows [] = [default] := (splitRows_eq_default_iff []).mpr rfl
    have hlines : onePass [default] kept ≠ [default] := fun hone =>
      huntouched ⟨rfl, (onePass_default_iff hundeleted).mp hone⟩
    have hlength := length_onePassWithoutLast hundeleted
    have hmany : head ++ onePass [default] kept ≠ [default] := by
      intro hone
      have hcount := congrArg List.length hone
      rw [length_append, length_singleton] at hcount
      have hhead : head = [] := eq_nil_of_length_eq_zero (by omega)
      rw [hhead] at hone
      exact hlines hone
    rw [hsplit, insertAtStart_of_ne hlines] at heq
    have hcount := congrArg List.length heq
    rw [length_insertAtEnd hmany, length_append, length_append, length_append] at hcount
    omega
  rw [if_neg huntouched, or_iff_left hlast, or_iff_right huntouched]
  exact insertAtEnd_insertAtStart_iff hends _

/-- The only line of a text is replaced by an empty row, and a row is put at the tail. -/
def emptyThenTail : List (AppliedEdit Row) :=
  [.insert (.beforeAnchor 1) default 1 true none, .delete 1 1,
    .insert .eof ⟨units "y", by decide⟩ 2 false none]

/-- The empty row is taken for a sentinel, and lost. -/
theorem not_landsAtEnds :
    ¬LandsAtEnds (units "x") (dropTrailingPhantomDeletes emptyThenTail (splitRows (units "x")))
      (joinRows (materializeEdits (splitRows (units "x"))
        (dropTrailingPhantomDeletes emptyThenTail (splitRows (units "x")))).lines) := by
  rw [LandsAtEnds]
  decide +kernel

/-- A row at the tail of a text that ends with a newline comes in front of its sentinel. -/
theorem landsAtEnds_tail : LandsAtEnds (units "x\n") (dropTrailingPhantomDeletes
        [.insert .eof ⟨units "y", by decide⟩ 1 false none] (splitRows (units "x\n")))
      (joinRows (materializeEdits (splitRows (units "x\n")) (dropTrailingPhantomDeletes
        [.insert .eof ⟨units "y", by decide⟩ 1 false none] (splitRows (units "x\n")))).lines) := by
  refine (landsAtEnds_iff ?_ ?_).mpr ?_
  · rw [InBounds]
    decide
  · decide
  rw [EndsAreClear]
  decide

end BreadboardTui.Hashline.Apply
