import BreadboardTui.Hashline.HeadAndTail

/-!
# Echoes at the boundary of a replacement

The payload of a replacement may restate rows that stand just outside of the range that it
replaces. Such an echo is dropped from the payload, as the rows are in the file anyway. The rows
are compared with the file as it was, and whether another edit of the list deletes them there is
not looked at.
-/

namespace BreadboardTui.Hashline.Apply

open List Bool

/-! ### Replacement groups -/

section Groups

variable {α : Type}

/-- A row of the payload of an op, which is told from others by its line in the patch. -/
def isPayloadOf (lineNum anchorLine : ℕ) : AppliedEdit α → Bool
  | .insert (.beforeAnchor line) _ n true _ => n = lineNum && line = anchorLine
  | _ => false

/-- The deletes of the op, from a line of the file on. -/
def rangeDeletes (lineNum expectedLine : ℕ) : List (AppliedEdit α) → List (AppliedEdit α)
  | .delete line n :: edits =>
    if n = lineNum ∧ line = expectedLine then
      .delete line n :: rangeDeletes lineNum (expectedLine + 1) edits
    else []
  | _ => []

/-- The inserts of a payload, and the deletes of the range behind them. -/
structure ReplacementGroup (α : Type) where
  inserts : List (AppliedEdit α)
  deletes : List (AppliedEdit α)
  startLine : ℕ
  deriving DecidableEq, Repr

namespace ReplacementGroup

def payload (group : ReplacementGroup α) : List α := group.inserts.filterMap AppliedEdit.text

def endLine (group : ReplacementGroup α) : ℕ := group.startLine + group.deletes.length - 1

def edits (group : ReplacementGroup α) : List (AppliedEdit α) := group.inserts ++ group.deletes

end ReplacementGroup

/-- The group at the start of the edits. -/
def findReplacementGroup (edits : List (AppliedEdit α)) : Option (ReplacementGroup α) :=
  match edits with
  | .insert (.beforeAnchor anchorLine) _ lineNum true _ :: _ =>
    let deletes :=
      rangeDeletes lineNum anchorLine (edits.dropWhile (isPayloadOf lineNum anchorLine))
    if deletes = [] then none
    else some ⟨edits.takeWhile (isPayloadOf lineNum anchorLine), deletes, anchorLine⟩
  | _ => none

/-- A group, or an edit that is in none. -/
inductive Segment (α : Type) where
  | replacement (group : ReplacementGroup α)
  | single (edit : AppliedEdit α)
  deriving DecidableEq, Repr

namespace Segment

def edits : Segment α → List (AppliedEdit α)
  | .replacement group => group.edits
  | .single edit => [edit]

def group : Segment α → Option (ReplacementGroup α)
  | .replacement group => some group
  | .single _ => none

end Segment

/-- The loop over the edits that all passes share. A group that is found has a payload and a range,
and the loop goes on behind them. -/
def segments : List (AppliedEdit α) → List (Segment α)
  | [] => []
  | edit :: edits =>
    match findReplacementGroup (edit :: edits) with
    | none => .single edit :: segments edits
    | some group => .replacement group :: segments (edits.drop (group.edits.length - 1))
termination_by edits => edits.length
decreasing_by
  · exact Nat.lt_succ_self _
  · rw [length_drop, length_cons]
    omega

theorem prefix_rangeDeletes_edits (lineNum expectedLine : ℕ) (edits : List (AppliedEdit α)) :
    rangeDeletes lineNum expectedLine edits <+: edits := by
  induction edits generalizing expectedLine with
  | nil => exact prefix_rfl
  | cons edit edits ih =>
    cases edit with
    | insert => exact nil_prefix
    | delete =>
      rw [rangeDeletes]
      split
      · exact cons_prefix_cons.mpr ⟨rfl, ih _⟩
      · exact nil_prefix

variable {edits : List (AppliedEdit α)}

theorem isDelete_of_mem_rangeDeletes {lineNum expectedLine : ℕ}
    {edit : AppliedEdit α} (h : edit ∈ rangeDeletes lineNum expectedLine edits) :
    edit.isDelete = true := by
  induction edits generalizing expectedLine with
  | nil => exact absurd h not_mem_nil
  | cons first edits ih =>
    cases first with
    | insert => exact absurd h not_mem_nil
    | delete =>
      rw [rangeDeletes] at h
      split at h
      · rcases mem_cons.mp h with rfl | h
        · rfl
        · exact ih h
      · exact absurd h not_mem_nil

variable {group : ReplacementGroup α}

theorem findReplacementGroup_eq_some (h : findReplacementGroup edits = some group) :
    ∃ lineNum, group.inserts = edits.takeWhile (isPayloadOf lineNum group.startLine) ∧
      group.deletes = rangeDeletes lineNum group.startLine
        (edits.dropWhile (isPayloadOf lineNum group.startLine)) ∧
      group.deletes ≠ [] := by
  unfold findReplacementGroup at h
  split at h
  · next lineNum _ _ =>
    dsimp only at h
    split at h
    · exact absurd h (Option.some_ne_none _).symm
    next hne =>
    cases h
    exact ⟨lineNum, rfl, rfl, hne⟩
  · exact absurd h (Option.some_ne_none _).symm

/-- A group stands in front of the edits behind it. -/
theorem edits_prefix_of_findReplacementGroup (h : findReplacementGroup edits = some group) :
    group.edits <+: edits := by
  obtain ⟨lineNum, hinserts, hdeletes, -⟩ := findReplacementGroup_eq_some h
  rw [ReplacementGroup.edits, hinserts, hdeletes]
  conv_rhs => rw [← takeWhile_append_dropWhile (p := isPayloadOf lineNum group.startLine)
    (l := edits)]
  exact prefix_append_right_inj _ |>.mpr (prefix_rangeDeletes_edits ..)

/-- The loop sees every edit once. -/
theorem flatMap_segments (edits : List (AppliedEdit α)) :
    (segments edits).flatMap Segment.edits = edits := by
  induction edits using segments.induct with
  | case1 =>
    rw [segments]
    rfl
  | case2 edit edits hnone ih =>
    rw [segments, hnone, flatMap_cons, ih]
    rfl
  | case3 edit edits group hsome ih =>
    rw [segments, hsome, flatMap_cons, ih]
    obtain ⟨rest, hrest⟩ := edits_prefix_of_findReplacementGroup hsome
    obtain ⟨-, -, -, hne⟩ := findReplacementGroup_eq_some hsome
    have hpos : 0 < group.edits.length := by
      rw [ReplacementGroup.edits, length_append]
      exact Nat.add_pos_right _ (length_pos_of_ne_nil hne)
    have hdrop : edits.drop (group.edits.length - 1) = rest := by
      have hcons : (edit :: edits).drop group.edits.length = rest := by
        rw [← hrest, drop_left]
      obtain ⟨n, hn⟩ := Nat.exists_eq_add_of_lt hpos
      rw [← hcons, hn]
      rfl
    rw [hdrop]
    exact hrest

theorem mem_segments (h : .replacement group ∈ segments edits) :
    (∀ edit ∈ group.inserts, ∃ cursor text lineNum blockStart,
        edit = .insert cursor text lineNum true blockStart) ∧
      ∀ edit ∈ group.deletes, edit.isDelete = true := by
  induction edits using segments.induct with
  | case1 =>
    rw [segments] at h
    exact absurd h not_mem_nil
  | case2 edit edits hnone ih =>
    rw [segments, hnone] at h
    rcases mem_cons.mp h with h | h
    · exact absurd h (by simp)
    · exact ih h
  | case3 edit edits found hsome ih =>
    rw [segments, hsome] at h
    rcases mem_cons.mp h with h | h
    · obtain rfl : group = found := Segment.replacement.inj h
      obtain ⟨lineNum, hinserts, hdeletes, -⟩ := findReplacementGroup_eq_some hsome
      refine ⟨fun edit hedit => ?_, fun edit hedit => ?_⟩
      · rw [hinserts] at hedit
        have hpayload := mem_takeWhile_imp hedit
        rcases edit with ⟨(_ | _ | _ | _), text, n, (_ | _), blockStart⟩ | ⟨_, _⟩
        case insert.beforeAnchor.true => exact ⟨_, _, _, _, rfl⟩
        all_goals exact absurd hpayload false_ne_true
      rw [hdeletes] at hedit
      exact isDelete_of_mem_rangeDeletes hedit
    · exact ih h

/-- The replacements of the edits. -/
def replacementGroups (edits : List (AppliedEdit α)) : List (ReplacementGroup α) :=
  (segments edits).filterMap Segment.group

end Groups

/-! ### Annotations -/

/-- A node of a syntax tree, with the lines that it spans. -/
structure NodeSpan where
  kind : String
  startLine : ℕ
  endLine : ℕ
  startLine_le : startLine ≤ endLine
  deriving DecidableEq, Repr

/-- `nodeChain` under the grammar of a path: the nodes that contain a line. -/
abbrev NodeChain := List Row → ℕ → List NodeSpan

def annotationNodeKinds : List String :=
  ["attribute_item", "inner_attribute_item", "decorator", "annotation", "marker_annotation",
    "attribute_list"]

def isAnnotationLine (fileLines : List Row) (nodeChain : NodeChain) (line : ℕ) : Bool :=
  (nodeChain fileLines line).any fun node =>
    node.startLine = line && node.endLine = line && node.kind ∈ annotationNodeKinds

/-- Without a path there is no grammar. -/
def isAnnotationEchoRun (fileLines : List Row) (path : Option NodeChain) (first last : ℕ) : Bool :=
  match path with
  | none => false
  | some nodeChain =>
    (List.range' first (last + 1 - first)).all (isAnnotationLine fileLines nodeChain)

/-! ### Normalization -/

def hasNonWhitespace (row : Row) : Bool :=
  row.units.any fun code => !([9, 10, 11, 12, 13, 32].contains code)

/-- Rows of a payload are rows of the file, and not all of them are blank. -/
def isEcho (rows fileRows : List Row) : Bool :=
  rows = fileRows && rows.any hasNonWhitespace

/-- The longest echo, where there is one. -/
def longestEcho (max : ℕ) (isEchoOf : ℕ → Bool) : ℕ :=
  ((List.range' 1 max).reverse.find? isEchoOf).getD 0

def countDuplicateLeadingBoundaryLines (group : ReplacementGroup Row) (fileLines : List Row) : ℕ :=
  longestEcho (min group.payload.length (group.startLine - 1)) fun count =>
    isEcho (group.payload.take count) ((fileLines.drop (group.startLine - 1 - count)).take count)

def countDuplicateTrailingBoundaryLines (group : ReplacementGroup Row) (fileLines : List Row) :
    ℕ :=
  longestEcho (min group.payload.length (fileLines.length - group.endLine)) fun count =>
    isEcho (group.payload.drop (group.payload.length - count))
      ((fileLines.drop group.endLine).take count)

inductive Side where
  | leading
  | trailing
  deriving DecidableEq, Repr

structure TextualBoundaryAmbiguity where
  startLine : ℕ
  endLine : ℕ
  side : Side
  count : ℕ
  deriving DecidableEq, Repr

def textualBoundaryEchoWarning (startLine leading trailing : ℕ) : String :=
  let parts := (if 0 < leading then [toString leading ++ " leading"] else []) ++
    (if 0 < trailing then [toString trailing ++ " trailing"] else [])
  "Auto-repaired a replacement boundary echo at line " ++ toString startLine ++ ": dropped " ++
    String.intercalate " and " parts ++ " body line(s) " ++
    "already present outside the range. " ++
    "Issue the body as final content for the selected range only."

/-- How many rows of a payload are dropped. -/
structure Drop where
  leading : ℕ
  trailing : ℕ
  ambiguity : Option TextualBoundaryAmbiguity
  deriving DecidableEq, Repr

/-- The decision about a group. An echo on one side of a single line needs that the echoed rows are
annotations, and what is left of the payload has to fill the range. -/
def dropOf (group : ReplacementGroup Row) (fileLines : List Row) (path : Option NodeChain) : Drop :=
  let leading := countDuplicateLeadingBoundaryLines group fileLines
  let trailing := countDuplicateTrailingBoundaryLines group fileLines
  let rangeLength := group.deletes.length
  let ambiguous := fun side count => some ⟨group.startLine, group.endLine, side, count⟩
  if 0 < leading ∧ 0 < trailing then
    if group.payload.length = rangeLength + leading + trailing then ⟨leading, trailing, none⟩
    else ⟨0, 0, none⟩
  else if 0 < leading ∧ (1 < rangeLength ∨
      isAnnotationEchoRun fileLines path (group.startLine - leading) (group.startLine - 1)) then
    if rangeLength ≤ group.payload.length - leading then ⟨leading, 0, none⟩
    else ⟨0, 0, ambiguous .leading leading⟩
  else if 0 < trailing ∧ (1 < rangeLength ∨
      isAnnotationEchoRun fileLines path (group.endLine + 1) (group.endLine + trailing)) then
    if rangeLength ≤ group.payload.length - trailing then ⟨0, trailing, none⟩
    else ⟨0, 0, ambiguous .trailing trailing⟩
  else ⟨0, 0, none⟩

/-- The inserts that are left. -/
def keptInserts (group : ReplacementGroup Row) (drop : Drop) : List (AppliedEdit Row) :=
  (group.inserts.take (group.inserts.length - drop.trailing)).drop drop.leading

structure TextualBoundaryNormalization where
  edits : List (AppliedEdit Row)
  warnings : List String
  ambiguities : List TextualBoundaryAmbiguity

/-- The edits of a segment, as they are normalized. -/
def normalizeSegment (fileLines : List Row) (path : Option NodeChain) :
    Segment Row → List (AppliedEdit Row)
  | .single edit => [edit]
  | .replacement group => keptInserts group (dropOf group fileLines path) ++ group.deletes

/-- Drops the echoes of all groups. -/
def normalizeTextualBoundaryEchoes (edits : List (AppliedEdit Row)) (fileLines : List Row)
    (path : Option NodeChain) : TextualBoundaryNormalization where
  edits := (segments edits).flatMap (normalizeSegment fileLines path)
  warnings := (replacementGroups edits).filterMap fun group =>
    let drop := dropOf group fileLines path
    if 0 < drop.leading ∨ 0 < drop.trailing then
      some (textualBoundaryEchoWarning group.startLine drop.leading drop.trailing)
    else none
  ambiguities := (replacementGroups edits).filterMap fun group =>
    (dropOf group fileLines path).ambiguity

/-! ### What is dropped -/

theorem longestEcho_le_and {max : ℕ} {isEchoOf : ℕ → Bool} (h : 0 < longestEcho max isEchoOf) :
    longestEcho max isEchoOf ≤ max ∧ isEchoOf (longestEcho max isEchoOf) = true := by
  rw [longestEcho] at h ⊢
  cases hfind : (List.range' 1 max).reverse.find? isEchoOf with
  | none =>
    rw [hfind] at h
    exact absurd h (lt_irrefl 0)
  | some =>
    have hmem := mem_of_find?_eq_some hfind
    rw [mem_reverse, mem_range'_1] at hmem
    refine ⟨?_, find?_some hfind⟩
    rw [Option.getD_some]
    omega

variable {echo : Row × ℕ} {fileLines : List Row}

/-- Rows at the numbers of the lines that they are equal to. -/
theorem mem_zipIdx_of_take_drop {rows : List Row} {start count : ℕ}
    (h : rows = (fileLines.drop start).take count)
    (hecho : echo ∈ rows.zipIdx (start + 1)) : echo ∈ fileLines.zipIdx 1 := by
  obtain ⟨row, line⟩ := echo
  rw [mem_zipIdx_iff_le_and_getElem?_sub] at hecho ⊢
  obtain ⟨hle, hrow⟩ := hecho
  refine ⟨by omega, ?_⟩
  have hlt : line - (start + 1) < count := by
    rw [h] at hrow
    have hlength := (List.getElem?_eq_some_iff.mp hrow).1
    rw [length_take] at hlength
    omega
  rw [h, getElem?_take, if_pos hlt, getElem?_drop] at hrow
  rw [← hrow]
  refine congrArg (fileLines[·]?) ?_
  omega

/-- The rows that are dropped from a payload, with the lines that they were matched against. -/
def droppedEchoes (group : ReplacementGroup Row) (fileLines : List Row)
    (path : Option NodeChain) : List (Row × ℕ) :=
  let drop := dropOf group fileLines path
  (group.payload.take drop.leading).zipIdx (group.startLine - drop.leading) ++
    (group.payload.drop (group.payload.length - drop.trailing)).zipIdx (group.endLine + 1)

/-- An echo is dropped in whole, and what is left fills the range. -/
theorem dropOf_cases (group : ReplacementGroup Row) (fileLines : List Row)
    (path : Option NodeChain) :
    ((dropOf group fileLines path).leading = 0 ∨ (dropOf group fileLines path).leading =
        countDuplicateLeadingBoundaryLines group fileLines) ∧
      ((dropOf group fileLines path).trailing = 0 ∨ (dropOf group fileLines path).trailing =
        countDuplicateTrailingBoundaryLines group fileLines) ∧
      (dropOf group fileLines path).leading + (dropOf group fileLines path).trailing ≤
        group.payload.length := by
  have hleading : countDuplicateLeadingBoundaryLines group fileLines ≤ group.payload.length := by
    rcases eq_zero_or_pos (countDuplicateLeadingBoundaryLines group fileLines) with h | h
    · rw [h]
      exact Nat.zero_le _
    · exact (longestEcho_le_and h).1.trans (Nat.min_le_left _ _)
  have htrailing : countDuplicateTrailingBoundaryLines group fileLines ≤ group.payload.length := by
    rcases eq_zero_or_pos (countDuplicateTrailingBoundaryLines group fileLines) with h | h
    · rw [h]
      exact Nat.zero_le _
    · exact (longestEcho_le_and h).1.trans (Nat.min_le_left _ _)
  unfold dropOf
  dsimp only
  split_ifs with _ hfill
  · exact ⟨.inr rfl, .inr rfl, by dsimp only; omega⟩
  · exact ⟨.inl rfl, .inl rfl, Nat.zero_le _⟩
  · exact ⟨.inr rfl, .inl rfl, hleading⟩
  · exact ⟨.inl rfl, .inl rfl, Nat.zero_le _⟩
  · exact ⟨.inl rfl, .inr rfl, by dsimp only; omega⟩
  · exact ⟨.inl rfl, .inl rfl, Nat.zero_le _⟩
  · exact ⟨.inl rfl, .inl rfl, Nat.zero_le _⟩

theorem mem_zipIdx_of_mem_droppedEchoes {group : ReplacementGroup Row}
    {path : Option NodeChain} (h : echo ∈ droppedEchoes group fileLines path) :
    echo ∈ fileLines.zipIdx 1 := by
  obtain ⟨hleading, htrailing, -⟩ := dropOf_cases group fileLines path
  rw [droppedEchoes, mem_append] at h
  rcases h with h | h
  · rcases eq_zero_or_pos (dropOf group fileLines path).leading with hzero | hpos
    · rw [hzero, take_zero] at h
      exact absurd h not_mem_nil
    · have hcount := hleading.resolve_left hpos.ne'
      rw [hcount] at h hpos
      obtain ⟨hle, hecho⟩ := longestEcho_le_and hpos
      rw [isEcho, and_eq_true, decide_eq_true_eq] at hecho
      refine mem_zipIdx_of_take_drop hecho.1 ?_
      have hstart : group.startLine - 1 - countDuplicateLeadingBoundaryLines group fileLines + 1 =
          group.startLine - countDuplicateLeadingBoundaryLines group fileLines := by
        rw [countDuplicateLeadingBoundaryLines] at hpos ⊢
        omega
      rw [← hstart] at h
      exact h
  rcases eq_zero_or_pos (dropOf group fileLines path).trailing with hzero | hpos
  · rw [hzero, Nat.sub_zero, drop_length] at h
    exact absurd h not_mem_nil
  · have hcount := htrailing.resolve_left hpos.ne'
    rw [hcount] at h hpos
    obtain ⟨-, hecho⟩ := longestEcho_le_and hpos
    rw [isEcho, and_eq_true, decide_eq_true_eq] at hecho
    exact mem_zipIdx_of_take_drop hecho.1 h

/-! ### What the result has of it -/

theorem isDeleted_normalize (edits : List (AppliedEdit Row)) (fileLines : List Row)
    (path : Option NodeChain) (line : ℕ) :
    isDeleted (normalizeTextualBoundaryEchoes edits fileLines path).edits line =
      isDeleted edits line := by
  have hany (edits : List (AppliedEdit Row)) : isDeleted edits line =
      edits.any fun edit => decide (line ∈ edit.anchors) && edit.isDelete := by
    rw [isDeleted, editsAt, any_filter]
  have hsegment : ∀ segment ∈ segments edits,
      ((normalizeSegment fileLines path segment).any fun edit =>
        decide (line ∈ edit.anchors) && edit.isDelete) =
      segment.edits.any fun edit => decide (line ∈ edit.anchors) && edit.isDelete := by
    intro segment hsegment
    cases segment with
    | single => rfl
    | replacement group =>
      have hinserts : ∀ edit ∈ group.inserts,
          (decide (line ∈ edit.anchors) && edit.isDelete) = false := by
        intro edit hedit
        obtain ⟨_, _, _, _, rfl⟩ := (mem_segments hsegment).1 edit hedit
        exact and_false _
      have hnone (kept : List (AppliedEdit Row)) (hkept : ∀ edit ∈ kept, edit ∈ group.inserts) :
          (kept.any fun edit => decide (line ∈ edit.anchors) && edit.isDelete) = false := by
        rw [any_eq_false]
        intro edit hedit
        rw [hinserts edit (hkept edit hedit)]
        exact false_ne_true
      rw [normalizeSegment, Segment.edits, ReplacementGroup.edits, any_append,
        any_append, hnone _ fun _ hedit => hedit, hnone]
      intro edit hedit
      exact mem_of_mem_take (mem_of_mem_drop hedit)
  rw [hany, hany, normalizeTextualBoundaryEchoes]
  conv_rhs => rw [← flatMap_segments edits]
  rw [any_flatMap, any_flatMap, Bool.eq_iff_iff, any_eq_true, any_eq_true]
  refine exists_congr fun segment => and_congr_right fun hmem => ?_
  rw [hsegment segment hmem]

/-- A line is in the result exactly if it is one of the file and no edit deletes it. -/
theorem original_mem_onePass_iff (fileLines : List Row) (edits : List (AppliedEdit Row))
    (echo : Row × ℕ) :
    (.original echo.2, echo.1) ∈ onePass (numberedLines fileLines) (numberedEdits edits) ↔
      echo ∈ fileLines.zipIdx 1 ∧ isDeleted edits echo.2 = false := by
  have hfilter := (filter_onePass fileLines (insertsRows_numberedEdits edits)).1
  have hmem : (Source.original echo.2, echo.1) ∈
      onePass (numberedLines fileLines) (numberedEdits edits) ↔
      (Source.original echo.2, echo.1) ∈ (onePass (numberedLines fileLines)
        (numberedEdits edits)).filter fun row => row.1.isOriginal := by
    rw [mem_filter]
    exact (and_iff_left rfl).symm
  rw [hmem, hfilter, mem_map]
  constructor
  · rintro ⟨entry, hentry, heq⟩
    obtain ⟨hline, hrow⟩ := Prod.ext_iff.mp heq
    obtain rfl : entry = echo := Prod.ext hrow (Source.original.inj hline)
    rw [mem_filter, isDeleted_numberedEdits, Bool.not_eq_true'] at hentry
    exact hentry
  rintro ⟨hentry, hkept⟩
  refine ⟨echo, ?_, rfl⟩
  rw [mem_filter, isDeleted_numberedEdits, Bool.not_eq_true']
  exact ⟨hentry, hkept⟩

/-- An echo of `count` rows on one side, and of `other` on the other, may be taken away: what is
left of the payload fills the range. -/
def EchoFills (group : ReplacementGroup Row) (count other : ℕ) (annotated : Bool) : Prop :=
  if 0 < other then group.payload.length = group.deletes.length + count + other
  else (1 < group.deletes.length ∨ annotated = true) ∧
    group.deletes.length ≤ group.payload.length - count

/-- The line is above the range, in an echo that is taken away. -/
def InLeadingEcho (group : ReplacementGroup Row) (fileLines : List Row) (path : Option NodeChain)
    (line : ℕ) : Prop :=
  let leading := countDuplicateLeadingBoundaryLines group fileLines
  EchoFills group leading (countDuplicateTrailingBoundaryLines group fileLines)
      (isAnnotationEchoRun fileLines path (group.startLine - leading) (group.startLine - 1)) ∧
    group.startLine - leading ≤ line ∧ line < group.startLine

/-- The line is below the range, in an echo that is taken away. -/
def InTrailingEcho (group : ReplacementGroup Row) (fileLines : List Row) (path : Option NodeChain)
    (line : ℕ) : Prop :=
  let trailing := countDuplicateTrailingBoundaryLines group fileLines
  EchoFills group trailing (countDuplicateLeadingBoundaryLines group fileLines)
      (isAnnotationEchoRun fileLines path (group.endLine + 1) (group.endLine + trailing)) ∧
    group.endLine < line ∧ line ≤ group.endLine + trailing

theorem inLeadingEcho_iff (group : ReplacementGroup Row) (fileLines : List Row)
    (path : Option NodeChain) (line : ℕ) :
    InLeadingEcho group fileLines path line ↔
      group.startLine - (dropOf group fileLines path).leading ≤ line ∧ line < group.startLine := by
  unfold InLeadingEcho EchoFills dropOf
  split_ifs <;> grind

theorem inTrailingEcho_iff (group : ReplacementGroup Row) (fileLines : List Row)
    (path : Option NodeChain) (line : ℕ) :
    InTrailingEcho group fileLines path line ↔
      group.endLine < line ∧ line ≤ group.endLine + (dropOf group fileLines path).trailing := by
  unfold InTrailingEcho EchoFills dropOf
  split_ifs <;> grind

theorem mem_lines_of_mem_zipIdx {α : Type} {rows : List α} {start line : ℕ} :
    (∃ row, (row, line) ∈ rows.zipIdx start) ↔ start ≤ line ∧ line < start + rows.length := by
  constructor
  · rintro ⟨row, hrow⟩
    obtain ⟨hle, hlt, -⟩ := mem_zipIdx hrow
    exact ⟨hle, hlt⟩
  rintro ⟨hle, hlt⟩
  have hindex : line - start < rows.length := by
    omega
  refine ⟨rows[line - start], ?_⟩
  rw [mk_mem_zipIdx_iff_le_and_getElem?_sub]
  exact ⟨hle, getElem?_eq_getElem hindex⟩

theorem exists_mem_droppedEchoes_iff (group : ReplacementGroup Row) (fileLines : List Row)
    (path : Option NodeChain) (line : ℕ) :
    (∃ row, (row, line) ∈ droppedEchoes group fileLines path) ↔
      InLeadingEcho group fileLines path line ∨ InTrailingEcho group fileLines path line := by
  obtain ⟨hleading, -, hle⟩ := dropOf_cases group fileLines path
  have hstart : (dropOf group fileLines path).leading ≤ group.startLine := by
    rcases eq_zero_or_pos (dropOf group fileLines path).leading with hzero | hpos
    · rw [hzero]
      exact Nat.zero_le _
    have hcount := hleading.resolve_left hpos.ne'
    rw [hcount] at hpos ⊢
    exact ((longestEcho_le_and hpos).1.trans (Nat.min_le_right _ _)).trans (Nat.sub_le _ _)
  rw [inLeadingEcho_iff, inTrailingEcho_iff, droppedEchoes]
  simp only [mem_append, exists_or, mem_lines_of_mem_zipIdx, length_take, length_drop]
  refine or_congr (and_congr_right fun _ => ?_) (and_congr Nat.lt_iff_add_one_le.symm ?_)
  · omega
  · omega

end BreadboardTui.Hashline.Apply
