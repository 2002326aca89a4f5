import BreadboardTui.Edit.DiffScript

/-!
# The lines of a preview are lines of the new text

A preview is made for an agent that edits the file again and names its lines by the numbers it
sees. The rows of a diff are those of a line edit; the preview counts the changes on the way, so it
knows the number of every line in the new text.
-/

namespace BreadboardTui.NumberedDiff

open List

open Hashline (Units units isDigitCode isTrimmedCode)
open Notebook (numberText parseDigits parseDigits_numberText isDigitCode_of_mem_numberText
  numberText_ne_nil)

/-! ### Reading a row -/

theorem parseInt_numberText (n : ℕ) : parseInt (numberText n) = some (n : ℤ) := by
  obtain ⟨digit, rest, heq⟩ := exists_cons_of_ne_nil (numberText_ne_nil n)
  have hdigits : ∀ code ∈ numberText n, isDigitCode code = true :=
    fun code => isDigitCode_of_mem_numberText
  have hdigit : 48 ≤ digit ∧ digit ≤ 57 := of_decide_eq_true (hdigits digit (heq ▸ mem_cons_self))
  have htrim : (numberText n).dropWhile isTrimmedCode = numberText n := by
    have hnot : isTrimmedCode digit = false := by
      obtain ⟨hlow, hhigh⟩ := hdigit
      interval_cases digit <;> decide
    rw [heq, dropWhile_cons, hnot]
    rfl
  have hhead : (numberText n).head? = some digit := by rw [heq]; rfl
  have htake : (numberText n).takeWhile isDigitCode = numberText n :=
    takeWhile_eq_self_iff.mpr hdigits
  have hminus : (numberText n).head? ≠ some 45 := by
    rw [hhead, ne_eq, Option.some.injEq]
    omega
  have hplus : (numberText n).head? ≠ some 43 := by
    rw [hhead, ne_eq, Option.some.injEq]
    omega
  rw [parseInt, htrim]
  simp [hminus, hplus, htake, numberText_ne_nil, parseDigits_numberText]

theorem parseNumberedDiffLine_rowText (row : DiffRow) :
    parseNumberedDiffLine (rowText (some row)) = some ⟨row.kind, row.lineNumber, row.content⟩ := by
  have hbar : ∀ code ∈ numberText row.lineNumber, decide (code ≠ 124) = true := by
    intro code hcode
    have : 48 ≤ code ∧ code ≤ 57 := of_decide_eq_true (isDigitCode_of_mem_numberText hcode)
    exact decide_eq_true (by omega)
  rw [rowText, formatNumberedDiffLine, integerText_natCast, parseNumberedDiffLine, kindOfCode_code,
    dropWhile_append_of_pos hbar, takeWhile_append_of_pos hbar]
  simp [parseInt_numberText]

theorem notMem_numberText (n : ℕ) : 10 ∉ numberText n := by
  intro h
  have : 48 ≤ 10 ∧ 10 ≤ 57 := of_decide_eq_true (isDigitCode_of_mem_numberText h)
  omega

theorem notMem_rowText {row : Option DiffRow} (h : ∀ r, row = some r → 10 ∉ r.content) :
    10 ∉ rowText row := by
  cases row with
  | none => exact not_mem_nil
  | some row =>
    rw [rowText, formatNumberedDiffLine, integerText_natCast, mem_cons, mem_append, mem_cons]
    rintro (hkind | hnumber | hbar | hcontent)
    · cases hrow : row.kind <;> rw [hrow] at hkind <;> cases hkind
    · exact notMem_numberText row.lineNumber hnumber
    · omega
    · exact h row rfl hcontent

/-- Two numbered lines are the same only with the same number. -/
theorem numberText_append_inj {n m : ℕ} {content content' : Units}
    (h : numberText n ++ 58 :: content = numberText m ++ 58 :: content') :
    n = m ∧ content = content' := by
  obtain ⟨htake, hdrop⟩ := takeWhile_number n (by decide : isDigitCode 58 = false) content
  obtain ⟨htake', hdrop'⟩ := takeWhile_number m (by decide : isDigitCode 58 = false) content'
  rw [h, htake'] at htake
  rw [h, hdrop'] at hdrop
  refine ⟨?_, (List.cons.inj hdrop).2.symm⟩
  rw [← parseDigits_numberText n, ← htake, parseDigits_numberText]

/-! ### The lines of the preview -/

/-- A separator, or a line of the new text with its number. -/
def Good (new : List Units) (line : Units) : Prop :=
  line = elisionMarker ∨ line = [] ∨
    ∃ index content, line = numberText (index + 1) ++ 58 :: content ∧ new[index]? = some content

variable {new : List Units} {line : Units} {output : List Units}

theorem good_appendPreviewLine (houtput : ∀ row ∈ output, Good new row) (hline : Good new line) :
    ∀ row ∈ appendPreviewLine output line, Good new row := by
  have hnormalized : Good new
      (if [units "...", elisionMarker, 43 :: elisionMarker].contains line then elisionMarker
      else line) := by
    split
    · exact .inl rfl
    · exact hline
  intro row hrow
  rw [appendPreviewLine] at hrow
  generalize (if [units "...", elisionMarker, 43 :: elisionMarker].contains line then elisionMarker
    else line) = normalized at hnormalized hrow
  split at hrow
  · exact houtput row hrow
  rcases mem_append.mp hrow with hrow | hrow
  · exact houtput row hrow
  · rwa [mem_singleton.mp hrow]

theorem good_foldl {run : List Units} (houtput : ∀ row ∈ output, Good new row)
    (hrun : ∀ row ∈ run, Good new row) : ∀ row ∈ run.foldl appendPreviewLine output, Good new row := by
  induction run generalizing output with
  | nil => exact houtput
  | cons line run ih =>
    exact ih (good_appendPreviewLine houtput (hrun line mem_cons_self))
      fun row hrow => hrun row (mem_cons_of_mem _ hrow)

/-- All lines that are written or wait to be written are good. -/
structure GoodState (new : List Units) (st : PreviewState) : Prop where
  formatted : ∀ row ∈ st.formatted, Good new row
  addedRun : ∀ row ∈ st.addedRun, Good new row

variable {st : PreviewState}

theorem GoodState.flush (h : GoodState new st) (edgeLines : ℕ) :
    GoodState new (st.flushAddedRun edgeLines) := by
  refine ⟨?_, fun row hrow => absurd hrow not_mem_nil⟩
  rw [PreviewState.flushAddedRun, appendAddedRun]
  split
  · exact good_foldl h.formatted h.addedRun
  have hfirst := good_foldl h.formatted fun row hrow =>
    h.addedRun row (mem_of_mem_take (i := edgeLines) hrow)
  exact good_foldl (good_appendPreviewLine hfirst (.inl rfl)) fun row hrow =>
    h.addedRun row (mem_of_mem_drop hrow)

theorem good_numberedLine {number : ℤ} {index : ℕ} {content : Units} (hnumber : number = index + 1)
    (hline : new[index]? = some content) : Good new (PreviewState.numberedLine number content) := by
  refine .inr (.inr ⟨index, content, ?_, hline⟩)
  rw [PreviewState.numberedLine, hnumber, ← integerText_natCast]
  rfl

variable {changed : Bool} {o n : ℕ} {ops : List LineOp} {rows : List (Option DiffRow)}

/-- The run: along a line edit, the numbers of the new text are known from the changes. -/
theorem good_run (h : Shown changed o n ops rows) (edgeLines : ℕ)
    (hst : GoodState new st) (hcount : (st.addedLines : ℤ) - st.removedLines = (n : ℤ) - o)
    (hnew : ∀ index c, (newLines ops)[index]? = some c →
      ∃ line, line + 1 = n + index ∧ new[line]? = some c) :
    GoodState new ((rows.map rowText).foldl (fun st line => st.step edgeLines line) st) := by
  induction h generalizing st with
  | nil => exact hst
  | gap h ih =>
    have hflush := hst.flush edgeLines
    exact ih ⟨good_appendPreviewLine hflush.formatted (.inr (.inl rfl)), hflush.addedRun⟩ hcount hnew
  | @keep changed o n c ops rows h ih =>
    rw [map_cons, foldl_cons, PreviewState.step, parseNumberedDiffLine_rowText]
    obtain ⟨line, hline, htext⟩ := hnew 0 c rfl
    have hflush := hst.flush edgeLines
    refine ih ⟨good_appendPreviewLine hflush.formatted (good_numberedLine ?_ htext),
      hflush.addedRun⟩ ?_ fun index c' hc' => ?_
    · dsimp only [PreviewState.flushAddedRun]
      omega
    · dsimp only [PreviewState.flushAddedRun]
      omega
    obtain ⟨line, hline, htext⟩ := hnew (index + 1) c' hc'
    exact ⟨line, by omega, htext⟩
  | @hide o n c ops rows hnext h ih =>
    refine ih hst (by push_cast; omega) fun index c' hc' => ?_
    obtain ⟨line, hline, htext⟩ := hnew (index + 1) c' hc'
    exact ⟨line, by omega, htext⟩
  | @remove changed o n c ops rows h ih =>
    rw [map_cons, foldl_cons, PreviewState.step, parseNumberedDiffLine_rowText]
    have hflush := hst.flush edgeLines
    refine ih ⟨hflush.formatted, hflush.addedRun⟩ ?_ hnew
    dsimp only [PreviewState.flushAddedRun]
    omega
  | @add changed o n c ops rows h ih =>
    rw [map_cons, foldl_cons, PreviewState.step, parseNumberedDiffLine_rowText]
    obtain ⟨line, hline, htext⟩ := hnew 0 c rfl
    refine ih ⟨hst.formatted, fun row hrow => ?_⟩ ?_ fun index c' hc' => ?_
    · rcases mem_append.mp hrow with hrow | hrow
      · exact hst.addedRun row hrow
      · rw [mem_singleton.mp hrow]
        exact good_numberedLine (by dsimp only; omega) htext
    · push_cast
      omega
    obtain ⟨line, hline, htext⟩ := hnew (index + 1) c' hc'
    exact ⟨line, by omega, htext⟩

/-! ### The text of the diff and of the preview -/

theorem lines_diff (h : Shown changed o n ops rows) (hcontent : ∀ op ∈ ops, 10 ∉ op.content) :
    ∃ rows' : List (Option DiffRow),
      (if [10].intercalate (rows.map rowText) = [] then []
        else ([10].intercalate (rows.map rowText)).splitOn 10) = rows'.map rowText ∧
        Shown changed o n ops rows' := by
  have htexts : ∀ text ∈ rows.map rowText, 10 ∉ text := by
    intro text htext
    obtain ⟨row, hrow, rfl⟩ := mem_map.mp htext
    refine notMem_rowText fun r hr => ?_
    obtain ⟨op, hop, heq⟩ := h.content_mem (hr ▸ hrow)
    exact heq ▸ hcontent op hop
  cases rows with
  | nil => exact ⟨[], rfl, h⟩
  | cons row rows =>
    split
    · next hempty =>
      -- then there is one row, which has no text
      cases rows with
      | nil =>
        rw [map_singleton, intercalate_singleton] at hempty
        cases row with
        | none => exact ⟨[], rfl, h.tail_of_gap⟩
        | some row => exact absurd hempty (rowText_ne_nil row)
      | cons =>
        rw [map_cons, map_cons, intercalate_cons_cons] at hempty
        simp at hempty
    · exact ⟨row :: rows, splitOn_intercalate 10 htexts (cons_ne_nil _ _), h⟩

theorem Good.notMem (h : Good new line) (hnew : ∀ text ∈ new, 10 ∉ text) : 10 ∉ line := by
  rcases h with rfl | rfl | ⟨index, content, rfl, htext⟩
  · decide
  · exact not_mem_nil
  rw [mem_append, mem_cons]
  rintro (hnumber | hcolon | hcontent)
  · exact notMem_numberText (index + 1) hnumber
  · omega
  · exact hnew content (mem_of_getElem? htext) hcontent

theorem content_op (part : DiffPart) (line : Units) : (part.op line).content = line := by
  rw [DiffPart.op]
  split
  · rfl
  split
  · rfl
  · rfl

/-- Every numbered line of the preview is that line of the new text. -/
theorem preview_lines_real {diffLines : LineDiff} {finder : BlockContextFinder}
    (hdiff : ∀ old new, ValidScript (diffLines old new) old new) (hfinder : IsBlockContext finder)
    (oldContent newContent : Units) {contextLines : ℤ} (hcontext : 1 ≤ contextLines)
    (options : CompactDiffOptions) {row : Units}
    (hrow : row ∈ (buildCompactDiffPreview
      (generateDiffString diffLines finder oldContent newContent contextLines).diff
        options).preview.splitOn 10)
    {N : ℕ} {content : Units} (hform : row = numberText N ++ 58 :: content) :
    1 ≤ N ∧ (textLines newContent)[N - 1]? = some content := by
  have hscript := hdiff oldContent newContent
  obtain ⟨hold, hnew⟩ := hscript.lines
  obtain ⟨rows, hrun, hshown⟩ := shown_run (by omega : 1 ≤ contextLines.toNat)
    hscript.value_ne_nil {} false (fun h => by cases h)
  obtain ⟨rows', hbrackets, hshown'⟩ := shown_addMatchingBracketContextRows hfinder hold hnew hshown
  have hcontents : ∀ op ∈ scriptOps (diffLines oldContent newContent), 10 ∉ op.content := by
    intro op hop
    obtain ⟨part, -, hop⟩ := mem_flatMap.mp hop
    obtain ⟨line, hline, rfl⟩ := mem_map.mp hop
    rw [content_op]
    exact notMem_of_mem_textLines hline
  obtain ⟨rows'', hlines, hshown''⟩ := lines_diff hshown' hcontents
  have hdiffText : (generateDiffString diffLines finder oldContent newContent contextLines).diff =
      [10].intercalate (rows'.map rowText) := by
    rw [generateDiffString, hrun, nil_append, hbrackets]
  rw [hdiffText, buildCompactDiffPreview, hlines] at hrow
  generalize normalizeAddedRunContext (options.maxAddedRunContext <|> options.maxUnchangedRun) =
    edgeLines at hrow
  have hstart : GoodState (textLines newContent) {} :=
    ⟨fun _ h => absurd h not_mem_nil, fun _ h => absurd h not_mem_nil⟩
  have hgood := (good_run hshown'' edgeLines hstart rfl fun index c hc =>
    ⟨index, Nat.add_comm _ _, hnew ▸ hc⟩).flush edgeLines
  generalize ((rows''.map rowText).foldl (fun st line => PreviewState.step st edgeLines line)
    {}).flushAddedRun edgeLines = st at hrow hgood
  have hkept : ∀ line ∈ st.formatted.rdropWhile isPreviewSeparator,
      Good (textLines newContent) line := fun line hline =>
    hgood.formatted line (( rdropWhile_prefix _ _).subset hline)
  generalize st.formatted.rdropWhile isPreviewSeparator = formatted at hrow hkept
  have hmem : row ∈ formatted ∨ row = [] := by
    by_cases hnil : formatted = []
    · rw [hnil, intercalate_nil, splitOn_nil, mem_singleton] at hrow
      exact .inr hrow
    rw [splitOn_intercalate 10 (fun line hline =>
      (hkept line hline).notMem fun text => notMem_of_mem_textLines) hnil] at hrow
    exact .inl hrow
  have hne : row ≠ [] := by
    rw [hform]
    exact fun h => cons_ne_nil _ _ (append_eq_nil_iff.mp h).2
  rcases hkept row (hmem.resolve_right hne) with hmarker | hgap | ⟨index, text, htext, hline⟩
  · rw [hform] at hmarker
    have hlast := congrArg List.length hmarker
    have := length_pos_iff.mpr (numberText_ne_nil N)
    rw [length_append, length_cons, elisionMarker, length_singleton] at hlast
    omega
  · exact absurd hgap hne
  obtain ⟨rfl, rfl⟩ := numberText_append_inj (hform.symm.trans htext)
  exact ⟨Nat.le_add_left 1 index, hline⟩

/-- One line is changed, and the line in front of it is shown. -/
theorem preview_lines_real_changed :
    1 ≤ 2 ∧ (textLines (units "a\nc\n"))[2 - 1]? = some (units "c") := by
  let diffLines : LineDiff := fun old new =>
    if old = units "a\nb\n" ∧ new = units "a\nc\n" then
      [⟨units "a\n", false, false⟩, ⟨units "b\n", false, true⟩, ⟨units "c\n", true, false⟩]
    else
      (if old = [] then [] else [⟨old, false, true⟩]) ++ if new = [] then [] else [⟨new, true, false⟩]
  have hdiff : ∀ old new, ValidScript (diffLines old new) old new := by
    intro old new
    by_cases h : old = units "a\nb\n" ∧ new = units "a\nc\n"
    · simp only [diffLines, if_pos h]
      obtain ⟨rfl, rfl⟩ := h
      exact ⟨by decide, by decide, by decide, by decide⟩
    simp only [diffLines, if_neg h]
    by_cases hold : old = [] <;> by_cases hnew : new = [] <;> constructor <;>
      simp [hold, hnew, lineTokens]
  have hfinder : IsBlockContext fun _ _ => [] := fun _ _ _ _ h => absurd h not_mem_nil
  have hrow : units "2:c" ∈ (buildCompactDiffPreview (generateDiffString diffLines (fun _ _ => [])
      (units "a\nb\n") (units "a\nc\n") 2).diff {}).preview.splitOn 10 := by decide +kernel
  exact preview_lines_real hdiff hfinder _ _ (by decide) {} hrow
    (by decide : units "2:c" = numberText 2 ++ 58 :: units "c")

end BreadboardTui.NumberedDiff
