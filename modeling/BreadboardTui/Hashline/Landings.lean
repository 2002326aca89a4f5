import BreadboardTui.Hashline.BoundaryEcho

/-!
# Landings of inserts behind a line

The rows that are inserted behind a line say by their indentation how deep they belong. Where they
are shallower than the line, or deeper than the closer of the block they were written for, the hunk
is moved over the closers next to its anchor. A construct that was written behind the opening line
of another one is moved behind that one, whatever stands between.
-/

namespace BreadboardTui.Hashline.Apply

open List Bool

open BlockEdits (Cursor)

/-! ### Rows -/

/-- `STRUCTURAL_CLOSER_RE`: closing brackets, perhaps with a comma or a semicolon behind them. -/
def isStructuralCloser (row : Row) : Bool :=
  let closers := (trim row.units).takeWhile [41, 93, 125].contains
  let rest := (trim row.units).dropWhile [41, 93, 125].contains
  closers ≠ [] && (rest = [] || rest = [59] || rest = [44])

def leadingIndent (row : Row) : Units := row.units.takeWhile [9, 32].contains

def isIndentDeeper (deeper shallower : Units) : Bool :=
  shallower.length < deeper.length && shallower.isPrefixOf deeper

/-- A tab goes on to the next multiple of `INDENT_TAB_WIDTH`. -/
def indentColumns (units : Units) : ℕ :=
  (units.takeWhile [9, 32].contains).foldl
    (fun column code => if code = 32 then column + 1 else column + (4 - column % 4)) 0

/-- The shallowest indentation of the rows, if they are comparable. -/
def commonIndent (target : Units) : List Row → Option Units
  | [] => some target
  | row :: rows =>
    if target.isPrefixOf (leadingIndent row) then commonIndent target rows
    else if (leadingIndent row).isPrefixOf target then commonIndent (leadingIndent row) rows
    else none

/-- The depth that the rows of a hunk claim. -/
def bodyTargetIndent (rows : List Row) : Option Units :=
  let nonBlank := rows.filter hasNonWhitespace
  if nonBlank = [] then none
  else if nonBlank.all isStructuralCloser then none
  else commonIndent (leadingIndent (nonBlank.headD default)) nonBlank

/-- `fileLines[line - 1]`. -/
def lineAt (fileLines : List Row) (line : ℕ) : Option Row :=
  if line = 0 then none else fileLines[line - 1]?

def rowAt (fileLines : List Row) (line : ℕ) : Row := (lineAt fileLines line).getD default

/-! ### Hunks -/

/-- The anchor and the patch line of an insert behind a line. -/
def afterKey : AppliedEdit Row → Option (ℕ × ℕ)
  | .insert (.afterAnchor line) _ lineNum false _ => some (line, lineNum)
  | _ => none

def blockStartOf : AppliedEdit Row → Option ℕ
  | .insert _ _ _ _ blockStart => blockStart
  | .delete _ _ => none

/-- The hunk of a key. Its members are the edits with the key. -/
structure AfterInsertGroup where
  key : ℕ × ℕ
  rows : List Row
  blockStart : Option ℕ
  deriving DecidableEq

namespace AfterInsertGroup

def anchor (group : AfterInsertGroup) : ℕ := group.key.1

end AfterInsertGroup

def groupOf (edits : List (AppliedEdit Row)) (key : ℕ × ℕ) : AfterInsertGroup where
  key := key
  rows := (edits.filter fun edit => afterKey edit = some key).filterMap AppliedEdit.text
  blockStart := (edits.find? fun edit => afterKey edit = some key).bind blockStartOf

/-- The hunks in the order of their first rows. -/
def afterInsertGroups (edits : List (AppliedEdit Row)) : List AfterInsertGroup :=
  (edits.filterMap afterKey).eraseDups.map (groupOf edits)

/-- The line is in `targetedLines`. -/
def isTargeted (edits : List (AppliedEdit Row)) (line : ℕ) : Bool :=
  edits.any fun edit => line ∈ edit.anchors

/-! ### Outward -/

/-- The loop over the rows below the anchor: where it lands, and how many closers it crosses. -/
def shiftedScan (target : Units) (targeted : ℕ → Bool) : List Row → ℕ → ℕ → ℕ → Option (ℕ × ℕ)
  | [], _, landing, crossed => some (landing, crossed)
  | row :: rows, line, landing, crossed =>
    if hasNonWhitespace row = false then shiftedScan target targeted rows (line + 1) landing crossed
    else if isStructuralCloser row = false then some (landing, crossed)
    else if target.isPrefixOf (leadingIndent row) = false then some (landing, crossed)
    else if targeted line then none
    else if (leadingIndent row).length = target.length then some (line, crossed + 1)
    else shiftedScan target targeted rows (line + 1) line (crossed + 1)

def resolveShiftedLanding (group : AfterInsertGroup) (target : Units) (fileLines : List Row)
    (targeted : ℕ → Bool) : Option (ℕ × ℕ) :=
  match lineAt fileLines group.anchor with
  | none => none
  | some anchorText =>
    if hasNonWhitespace anchorText = false then none
    else if isIndentDeeper (leadingIndent anchorText) target = false then none
    else
      (shiftedScan target targeted (fileLines.drop group.anchor) (group.anchor + 1)
        group.anchor 0).filter fun landing => landing.1 ≠ group.anchor

/-! ### Inward -/

/-- The loop from the anchor upwards. Its landing is the line that it has come to. -/
def inwardScan (target : Units) (anchor blockStart : ℕ) (fileLines : List Row)
    (targeted : ℕ → Bool) : ℕ → Option ℕ
  | 0 => some 0
  | line + 1 =>
    if line + 1 ≤ blockStart then some (line + 1)
    else if hasNonWhitespace (rowAt fileLines (line + 1)) = false then
      inwardScan target anchor blockStart fileLines targeted line
    else if isStructuralCloser (rowAt fileLines (line + 1)) = false then some (line + 1)
    else if isIndentDeeper target (leadingIndent (rowAt fileLines (line + 1))) = false then
      some (line + 1)
    else if line + 1 ≠ anchor ∧ targeted (line + 1) then none
    else inwardScan target anchor blockStart fileLines targeted line

def resolveInwardLanding (group : AfterInsertGroup) (target : Units) (blockStart : ℕ)
    (fileLines : List Row) (targeted : ℕ → Bool) : Option ℕ :=
  match lineAt fileLines group.anchor with
  | none => none
  | some anchorText =>
    if hasNonWhitespace anchorText = false then none
    else if isStructuralCloser anchorText = false then none
    else if isIndentDeeper target (leadingIndent anchorText) = false then none
    else (inwardScan target group.anchor blockStart fileLines targeted group.anchor).filter
      fun landing => landing ≠ group.anchor

/-! ### Out of a construct -/

/-- The parser for a path. -/
structure SyntaxProbe where
  nodeChain : NodeChain
  enclosingBoundaries : List Row → ℕ → ℕ → List ℕ
  parsesCleanly : Units → Bool

/-- The last line of the nodes that begin on a line, `0` if there is none. -/
def nodeEnd (spans : List NodeSpan) (line : ℕ) : ℕ :=
  ((spans.filter fun span => span.startLine = line).map NodeSpan.endLine).foldr max 0

theorem le_nodeEnd {spans : List NodeSpan} {line : ℕ} (h : nodeEnd spans line ≠ 0) :
    line ≤ nodeEnd spans line := by
  rw [nodeEnd] at h ⊢
  cases hspans : spans.filter fun span => span.startLine = line with
  | nil =>
    rw [hspans] at h
    exact absurd rfl h
  | cons span =>
    have hmem : span ∈ spans.filter fun span => span.startLine = line := by
      rw [hspans]
      exact mem_cons_self
    have hstart := of_decide_eq_true (mem_filter.mp hmem).2
    rw [map_cons, foldr_cons]
    exact (hstart.symm.le.trans span.startLine_le).trans (le_max_left _ _)

/-- The rows from `line` to `last` are nodes of their own, the last one of several lines. -/
def tilesTo (nodeChain : NodeChain) (rows : List Row) (last line : ℕ) : Bool :=
  if last < line then false
  else if hasNonWhitespace (rowAt rows line) = false then tilesTo nodeChain rows last (line + 1)
  else if nodeEnd (nodeChain rows line) line = 0 then false
  else if last ≤ nodeEnd (nodeChain rows line) line then
    line < nodeEnd (nodeChain rows line) line
  else tilesTo nodeChain rows last (nodeEnd (nodeChain rows line) line + 1)
termination_by last + 1 - line
decreasing_by
  · omega
  · next hnode _ =>
    have hle := le_nodeEnd hnode
    omega

def bodyIsRelocatableConstruct (rows : List Row) (nodeChain : NodeChain) : Bool :=
  let last := (rows.rdropWhile fun row => !hasNonWhitespace row).length
  if last = 0 then false else tilesTo nodeChain rows last 1

/-- `retarget`, on one edit. -/
def moveTo (line : ℕ) : AppliedEdit Row → AppliedEdit Row
  | .insert _ text lineNum replacement blockStart =>
    .insert (.afterAnchor line) text lineNum replacement blockStart
  | .delete line lineNum => .delete line lineNum

/-- The members of the hunk, told by the edits as they were, are moved in the current list. -/
def retarget (edits current : List (AppliedEdit Row)) (key : ℕ × ℕ) (line : ℕ) :
    List (AppliedEdit Row) :=
  List.zipWith (fun edit out => if afterKey edit = some key then moveTo line out else out)
    edits current

/-- The ends of the constructs around the anchor that the body may stand behind. -/
def escapeCandidates (group : AfterInsertGroup) (targetCols : ℕ) (fileLines : List Row)
    (chain : List NodeSpan) : List ℕ :=
  (((chain.filter fun node => group.anchor < node.endLine &&
    indentColumns (rowAt fileLines node.startLine).units ≤ targetCols).map
      NodeSpan.endLine).eraseDups).mergeSort

/-- A line behind the anchor, and not behind the landing, is targeted. -/
def isBlocked (edits : List (AppliedEdit Row)) (anchor landing : ℕ) : Bool :=
  edits.any fun edit => edit.anchors.any fun line => anchor < line && line ≤ landing

/-- The first candidate that no other hunk is in the way of, and that parses. -/
def resolveOpenerEscape (edits current : List (AppliedEdit Row)) (group : AfterInsertGroup)
    (target : Units) (fileLines : List Row) (path : Option SyntaxProbe) : Option ℕ :=
  match path with
  | none => none
  | some probe =>
    if indentColumns (rowAt fileLines group.anchor).units ≤ indentColumns target then none
    else
      let chain := probe.nodeChain fileLines group.anchor
      let isOpener := fun node : NodeSpan =>
        node.startLine = group.anchor && group.anchor < node.endLine
      if chain.any isOpener = false then none
      else if bodyIsRelocatableConstruct group.rows probe.nodeChain = false then none
      else
        ((escapeCandidates group (indentColumns target) fileLines chain).takeWhile
          fun landing => !isBlocked edits group.anchor landing).find? fun landing =>
            probe.parsesCleanly (joinRows
              (materializeEdits fileLines (retarget edits current group.key landing)).lines)

/-! ### All hunks -/

def afterInsertLandingShiftWarning (anchorLine landingLine crossed : ℕ) : String :=
  "PUT >" ++ toString anchorLine ++
    ": body indented shallower than the anchor, so the landing moved past " ++ toString crossed ++
    " closing line" ++ (if crossed = 1 then "" else "s") ++ " to after line " ++
    toString landingLine ++
    ". For the deeper position inside the block, re-issue with the body indented to match."

def afterInsertOpenerEscapeWarning (anchorLine landingLine : ℕ) : String :=
  "PUT >" ++ toString anchorLine ++ ": line " ++ toString anchorLine ++
    " opens a block, and the body's indentation claims a position " ++
    "outside it, so the body was landed after line " ++ toString landingLine ++
    " (verified by the syntax probe). " ++
    "To insert after a whole construct, anchor on its closing line or use `PUT >N*:`."

def blockInsertLandingShiftWarning (blockStart closerLine landingLine : ℕ) : String :=
  "PUT >" ++ toString blockStart ++ "*: body indented deeper than closing line " ++
    toString closerLine ++ ", so it was placed inside the block, after line " ++
    toString landingLine ++
    ". `PUT >N*` lands AFTER the block at sibling depth — if inside was intended, " ++
    "use plain `PUT >" ++ toString closerLine ++ ":`."

/-- Where a hunk lands if it is moved, and the warning. -/
def resolveLanding (edits current : List (AppliedEdit Row)) (group : AfterInsertGroup)
    (fileLines : List Row) (path : Option SyntaxProbe) : Option (ℕ × String) :=
  match bodyTargetIndent group.rows with
  | none => none
  | some target =>
    match resolveShiftedLanding group target fileLines (isTargeted edits) with
    | some (landing, crossed) =>
      some (landing, afterInsertLandingShiftWarning group.anchor landing crossed)
    | none =>
      match group.blockStart with
      | none =>
        (resolveOpenerEscape edits current group target fileLines path).map fun landing =>
          (landing, afterInsertOpenerEscapeWarning group.anchor landing)
      | some blockStart =>
        (resolveInwardLanding group target blockStart fileLines (isTargeted edits)).map
          fun landing => (landing, blockInsertLandingShiftWarning blockStart group.anchor landing)

structure Landings where
  edits : List (AppliedEdit Row)
  warnings : List String

/-- One round of the loop over the hunks. -/
def landGroup (edits : List (AppliedEdit Row)) (fileLines : List Row) (path : Option SyntaxProbe)
    (out : Landings) (group : AfterInsertGroup) : Landings :=
  match resolveLanding edits out.edits group fileLines path with
  | none => out
  | some (landing, warning) =>
    ⟨retarget edits out.edits group.key landing, out.warnings ++ [warning]⟩

def repairAfterInsertLandings (edits : List (AppliedEdit Row)) (fileLines : List Row)
    (path : Option SyntaxProbe) : Landings :=
  (afterInsertGroups edits).foldl (landGroup edits fileLines path) ⟨edits, []⟩

/-! ### What a hunk crosses -/

/-- A blank line, or a closer that no edit is anchored on. The anchor has the rows of the hunk. -/
def IsCrossable (edits : List (AppliedEdit Row)) (fileLines : List Row) (anchor line : ℕ) : Prop :=
  hasNonWhitespace (rowAt fileLines line) = false ∨
    isStructuralCloser (rowAt fileLines line) = true ∧
      (line ≠ anchor → ∀ edit ∈ edits, line ∉ edit.anchors)

/-- How a hunk with an anchor lands behind another line. -/
inductive Landing (edits : List (AppliedEdit Row)) (fileLines : List Row)
    (path : Option SyntaxProbe) (group : AfterInsertGroup) (landing : ℕ) : Prop where
  | outward (hlt : group.anchor < landing)
      (hcross : ∀ line, group.anchor < line → line ≤ landing →
        IsCrossable edits fileLines group.anchor line)
  | inward (hblock : group.blockStart ≠ none) (hlt : landing < group.anchor)
      (hcross : ∀ line, landing < line → line ≤ group.anchor →
        IsCrossable edits fileLines group.anchor line)
  | openerEscape (hblock : group.blockStart = none) (probe : SyntaxProbe)
      (hpath : path = some probe)
      (hbody : bodyIsRelocatableConstruct group.rows probe.nodeChain = true)
      (hlt : group.anchor < landing)
      (hfree : ∀ line, group.anchor < line → line ≤ landing → ∀ edit ∈ edits, line ∉ edit.anchors)

variable (edits : List (AppliedEdit Row)) (line : ℕ)

theorem isTargeted_eq_false_iff :
    isTargeted edits line = false ↔ ∀ edit ∈ edits, line ∉ edit.anchors := by
  rw [isTargeted, any_eq_false]
  refine forall_congr' fun edit => forall_congr' fun _ => ?_
  rw [decide_eq_true_eq]

theorem rowAt_succ (fileLines : List Row) (line : ℕ) :
    rowAt fileLines (line + 1) = (fileLines[line]?).getD default := by
  rw [rowAt, lineAt, if_neg (Nat.succ_ne_zero line)]
  rfl

variable {fileLines : List Row} {landing : ℕ} {target : Units} (anchor : ℕ)

/-- The scan stays at its landing, or crosses what is crossable up to a closer. -/
theorem shiftedScan_spec {edits : List (AppliedEdit Row)}
    {rows : List Row} {start crossed : ℕ} {result : ℕ × ℕ} (hrows : rows = fileLines.drop start)
    (h : shiftedScan target (isTargeted edits) rows (start + 1) landing crossed = some result) :
    result.1 = landing ∨ start < result.1 ∧
      ∀ line, start < line → line ≤ result.1 → IsCrossable edits fileLines anchor line := by
  induction rows generalizing start landing crossed with
  | nil => exact .inl (congrArg Prod.fst (Option.some.inj h)).symm
  | cons row rows ih =>
    have hrow : rowAt fileLines (start + 1) = row := by
      rw [rowAt_succ, ← add_zero start, ← getElem?_drop, ← hrows]
      rfl
    have hrest : rows = fileLines.drop (start + 1) := by
      rw [← tail_drop, ← hrows]
      rfl
    -- what holds of this line and of the lines below it holds from this line on
    have hextend {stop : ℕ} (hthis : IsCrossable edits fileLines anchor (start + 1))
        (hbelow : ∀ line, start + 1 < line → line ≤ stop →
          IsCrossable edits fileLines anchor line) :
        ∀ line, start < line → line ≤ stop → IsCrossable edits fileLines anchor line := by
      intro line hlt hle
      rcases Nat.eq_or_lt_of_le (Nat.succ_le_of_lt hlt) with rfl | hlt
      · exact hthis
      · exact hbelow line hlt hle
    rw [shiftedScan] at h
    split at h
    · next hblank =>
      have hthis : IsCrossable edits fileLines anchor (start + 1) := by
        refine .inl ?_
        rw [hrow]
        exact hblank
      rcases ih hrest h with hstay | ⟨hlt, hbelow⟩
      · exact .inl hstay
      · exact .inr ⟨by omega, hextend hthis hbelow⟩
    split at h
    · exact .inl (congrArg Prod.fst (Option.some.inj h)).symm
    next hcloser =>
    split at h
    · exact .inl (congrArg Prod.fst (Option.some.inj h)).symm
    split at h
    · exact absurd h (Option.some_ne_none _).symm
    next htargeted =>
    have hthis : IsCrossable edits fileLines anchor (start + 1) := by
      refine .inr ⟨?_, fun _ => ?_⟩
      · rw [hrow]
        exact not_eq_false _ ▸ hcloser
      · exact (isTargeted_eq_false_iff _ _).mp (not_eq_true _ ▸ htargeted)
    split at h
    · cases h
      refine .inr ⟨Nat.lt_succ_self _, hextend hthis fun line hlt hle => ?_⟩
      omega
    rcases ih hrest h with hstay | ⟨hlt, hbelow⟩
    · rw [hstay]
      refine .inr ⟨Nat.lt_succ_self _, hextend hthis fun line hlt hle => ?_⟩
      omega
    · exact .inr ⟨by omega, hextend hthis hbelow⟩

theorem inwardScan_spec {edits : List (AppliedEdit Row)} {anchor blockStart start : ℕ}
    (h : inwardScan target anchor blockStart fileLines (isTargeted edits) start = some landing) :
    landing ≤ start ∧
      ∀ line, landing < line → line ≤ start → IsCrossable edits fileLines anchor line := by
  have hstay (start : ℕ) : start ≤ start ∧
      ∀ line, start < line → line ≤ start → IsCrossable edits fileLines anchor line :=
    ⟨le_rfl, fun line hlt hle => absurd (hlt.trans_le hle) (lt_irrefl _)⟩
  induction start with
  | zero =>
    cases h
    exact hstay 0
  | succ start ih =>
    have hextend (hthis : IsCrossable edits fileLines anchor (start + 1))
        (habove : landing ≤ start ∧
          ∀ line, landing < line → line ≤ start → IsCrossable edits fileLines anchor line) :
        landing ≤ start + 1 ∧
          ∀ line, landing < line → line ≤ start + 1 → IsCrossable edits fileLines anchor line := by
      refine ⟨habove.1.trans (Nat.le_succ _), fun line hlt hle => ?_⟩
      rcases Nat.eq_or_lt_of_le hle with rfl | hle
      · exact hthis
      · exact habove.2 line hlt (Nat.le_of_lt_succ hle)
    rw [inwardScan] at h
    split at h
    · cases h
      exact hstay _
    split at h
    · next hblank => exact hextend (.inl hblank) (ih h)
    split at h
    · cases h
      exact hstay _
    · next hcloser =>
      split at h
      · cases h
        exact hstay _
      split at h
      · exact absurd h (Option.some_ne_none _).symm
      next howned =>
      refine hextend (.inr ⟨not_eq_false _ ▸ hcloser, fun hne => ?_⟩) (ih h)
      refine (isTargeted_eq_false_iff _ _).mp ?_
      exact not_eq_true _ ▸ fun htargeted => howned ⟨hne, htargeted⟩

theorem isBlocked_eq_false_iff (landing : ℕ) : isBlocked edits anchor landing = false ↔
      ∀ line, anchor < line → line ≤ landing → ∀ edit ∈ edits, line ∉ edit.anchors := by
  rw [isBlocked, any_eq_false]
  constructor
  · intro h line hlt hle edit hedit hmem
    refine h edit hedit (any_eq_true.mpr ⟨line, hmem, ?_⟩)
    rw [and_eq_true, decide_eq_true_eq, decide_eq_true_eq]
    exact ⟨hlt, hle⟩
  intro h edit hedit hany
  obtain ⟨line, hmem, hline⟩ := any_eq_true.mp hany
  rw [and_eq_true, decide_eq_true_eq, decide_eq_true_eq] at hline
  exact h line hline.1 hline.2 edit hedit hmem

variable {group : AfterInsertGroup}

theorem anchor_lt_of_mem_escapeCandidates {targetCols : ℕ}
    {chain : List NodeSpan} (h : landing ∈ escapeCandidates group targetCols fileLines chain) :
    group.anchor < landing := by
  rw [escapeCandidates, mem_mergeSort, mem_eraseDups, mem_map] at h
  obtain ⟨node, hnode, rfl⟩ := h
  have hkept := (mem_filter.mp hnode).2
  rw [and_eq_true, decide_eq_true_eq] at hkept
  exact hkept.1

theorem resolveLanding_landing {edits current : List (AppliedEdit Row)}
    {path : Option SyntaxProbe} {warning : String}
    (h : resolveLanding edits current group fileLines path = some (landing, warning)) :
    Landing edits fileLines path group landing := by
  rw [resolveLanding] at h
  split at h
  · exact absurd h (Option.some_ne_none _).symm
  next target _ =>
  split at h
  · next stop crossed hshifted =>
    obtain rfl : stop = landing := (Prod.ext_iff.mp (Option.some.inj h)).1
    rw [resolveShiftedLanding] at hshifted
    split at hshifted
    · exact absurd hshifted (Option.some_ne_none _).symm
    split_ifs at hshifted
    obtain ⟨hscan, hne⟩ := Option.filter_eq_some_iff.mp hshifted
    rcases shiftedScan_spec group.anchor rfl hscan with hstay | ⟨hlt, hcross⟩
    · exact absurd hstay (of_decide_eq_true hne)
    · exact .outward hlt hcross
  split at h
  · next hblock =>
    obtain ⟨stop, hescape, heq⟩ := Option.map_eq_some_iff.mp h
    obtain rfl : stop = landing := (Prod.ext_iff.mp heq).1
    unfold resolveOpenerEscape at hescape
    split at hescape
    · exact absurd hescape (Option.some_ne_none _).symm
    next probe =>
    dsimp only at hescape
    split_ifs at hescape with _ _ hbody
    have hmem := mem_of_find?_eq_some hescape
    have hblocked := mem_takeWhile_imp hmem
    rw [not_eq_true'] at hblocked
    refine .openerEscape hblock probe rfl (not_eq_false _ ▸ hbody) ?_
      ((isBlocked_eq_false_iff ..).mp hblocked)
    exact anchor_lt_of_mem_escapeCandidates ((takeWhile_sublist _).subset hmem)
  next hblock =>
  obtain ⟨stop, hinward, heq⟩ := Option.map_eq_some_iff.mp h
  obtain rfl : stop = landing := (Prod.ext_iff.mp heq).1
  rw [resolveInwardLanding] at hinward
  split at hinward
  · exact absurd hinward (Option.some_ne_none _).symm
  split_ifs at hinward
  obtain ⟨hscan, hne⟩ := Option.filter_eq_some_iff.mp hinward
  obtain ⟨hle, hcross⟩ := inwardScan_spec hscan
  refine .inward ?_ (lt_of_le_of_ne hle (of_decide_eq_true hne)) hcross
  rw [hblock]
  exact Option.some_ne_none _

/-- The edit, where its hunk lands. -/
def land (landing : ℕ × ℕ → Option ℕ) (edit : AppliedEdit Row) : AppliedEdit Row :=
  match (afterKey edit).bind landing with
  | none => edit
  | some line => moveTo line edit

theorem moveTo_moveTo (line' : ℕ) (edit : AppliedEdit Row) :
    moveTo line (moveTo line' edit) = moveTo line edit := by
  cases edit <;> rfl

/-- To move a hunk once more changes where it lands, and no other. -/
theorem retarget_map_land (landing : ℕ × ℕ → Option ℕ) (key : ℕ × ℕ) (line : ℕ) :
    retarget edits (edits.map (land landing)) key line =
      edits.map (land (Function.update landing key (some line))) := by
  rw [retarget, zipWith_map_right, zipWith_self]
  refine map_congr_left fun edit _ => ?_
  split
  · next hkey =>
    rw [land, land, hkey, Option.bind_some, Option.bind_some, Function.update_self]
    cases landing key with
    | none => rfl
    | some line' => exact moveTo_moveTo line line' edit
  next hkey =>
  rw [land, land]
  cases hafter : afterKey edit with
  | none => rfl
  | some other =>
    have hne : other ≠ key := fun heq => hkey (by rw [hafter, heq])
    rw [Option.bind_some, Option.bind_some, Function.update_of_ne hne]

/-- Each hunk is moved as a whole or stays: its rows keep their texts, their order and all else but
the anchor, and so do all other edits. A hunk is moved over blank lines and over closers that no
other edit is anchored on, or out of a construct, over no line that an edit is anchored on. -/
theorem repairAfterInsertLandings_moves (edits : List (AppliedEdit Row)) (fileLines : List Row)
    (path : Option SyntaxProbe) :
    ∃ landing : ℕ × ℕ → Option ℕ,
      (repairAfterInsertLandings edits fileLines path).edits = edits.map (land landing) ∧
        ∀ key line, landing key = some line →
          Landing edits fileLines path (groupOf edits key) line := by
  have hgroups : ∀ group ∈ afterInsertGroups edits, group = groupOf edits group.key := by
    intro group hgroup
    obtain ⟨key, -, rfl⟩ := mem_map.mp hgroup
    rfl
  have hstart : edits = edits.map (land fun _ => none) := by
    conv_lhs => rw [← map_id edits]
    refine map_congr_left fun edit _ => ?_
    rw [land]
    cases afterKey edit <;> rfl
  -- from one hunk to the next the current edits are the authored ones, where they have landed
  have hrun (groups : List AfterInsertGroup) (out : Landings)
      (hgroups : ∀ group ∈ groups, group = groupOf edits group.key)
      (hout : ∃ landing : ℕ × ℕ → Option ℕ, out.edits = edits.map (land landing) ∧
        ∀ key line, landing key = some line →
          Landing edits fileLines path (groupOf edits key) line) :
      ∃ landing : ℕ × ℕ → Option ℕ,
        (groups.foldl (landGroup edits fileLines path) out).edits = edits.map (land landing) ∧
          ∀ key line, landing key = some line →
            Landing edits fileLines path (groupOf edits key) line := by
    induction groups generalizing out with
    | nil => exact hout
    | cons group groups ih =>
      rw [foldl_cons]
      refine ih _ (fun other hmem => hgroups other (mem_cons_of_mem _ hmem)) ?_
      obtain ⟨landing, hedits, hlandings⟩ := hout
      rw [landGroup]
      split
      · exact ⟨landing, hedits, hlandings⟩
      next line warning hresolve =>
      refine ⟨Function.update landing group.key (some line), ?_, fun key line' hkey => ?_⟩
      · rw [hedits]
        exact retarget_map_land edits landing group.key line
      by_cases heq : key = group.key
      · rw [heq, Function.update_self] at hkey
        rw [heq, ← Option.some.inj hkey, ← hgroups group mem_cons_self]
        exact resolveLanding_landing hresolve
      rw [Function.update_of_ne heq] at hkey
      exact hlandings key line' hkey
  refine hrun _ _ hgroups ⟨fun _ => none, hstart, fun _ _ h => ?_⟩
  exact absurd h (Option.some_ne_none _).symm

/-- Strictly between an anchor and where its hunk lands there are blank lines and closers, and none
that an edit of another hunk is anchored on. -/
def CrossesUnowned (edits out : List (AppliedEdit Row)) (fileLines : List Row) : Prop :=
  ∀ pair ∈ edits.zip out, ∀ anchor ∈ pair.1.anchors, ∀ landing ∈ pair.2.anchors,
    ∀ line ∈ List.range (max anchor landing), min anchor landing < line →
      (hasNonWhitespace (rowAt fileLines line) = false ∨
        isStructuralCloser (rowAt fileLines line) = true) ∧
      ∀ other ∈ edits, line ∈ other.anchors → afterKey other = afterKey pair.1

/-- `    a();`, a blank line and `}`. -/
def gappedBlock : List Row :=
  [⟨[32, 32, 32, 32, 97, 40, 41, 59], by decide⟩, default, ⟨[125], by decide⟩]

/-- `b();` behind line 1, and `c` behind the blank line. -/
def insertsInGap : List (AppliedEdit Row) :=
  [.insert (.afterAnchor 1) ⟨[98, 40, 41, 59], by decide⟩ 1 false none,
    .insert (.afterAnchor 2) ⟨[99], by decide⟩ 3 false none]

/-- `mod m {`, and in it `fn f() {` with one statement. -/
def nestedModule : List Row :=
  [⟨[109, 111, 100, 32, 109, 32, 123], by decide⟩,
    ⟨[32, 32, 32, 32, 102, 110, 32, 102, 40, 41, 32, 123], by decide⟩,
    ⟨[32, 32, 32, 32, 32, 32, 32, 32, 97, 40, 41, 59], by decide⟩,
    ⟨[32, 32, 32, 32, 125], by decide⟩, ⟨[125], by decide⟩]

/-- `mod n {`, with an item and its closer, behind the line `fn f() {`. -/
def insertModule : List (AppliedEdit Row) :=
  [.insert (.afterAnchor 2) ⟨[109, 111, 100, 32, 110, 32, 123], by decide⟩ 1 false none,
    .insert (.afterAnchor 2) ⟨[32, 32, 32, 32, 117, 115, 101, 32, 120, 59], by decide⟩ 1 false none,
    .insert (.afterAnchor 2) ⟨[125], by decide⟩ 1 false none]

/-- The nodes of `nestedModule` around its second line, and of the inserted module. -/
def moduleProbe : SyntaxProbe where
  nodeChain lines line :=
    if lines = nestedModule ∧ line = 2 then
      [⟨"function_item", 2, 4, by decide⟩, ⟨"mod_item", 1, 5, by decide⟩]
    else if line = 1 then [⟨"mod_item", 1, 3, by decide⟩]
    else []
  enclosingBoundaries _ _ _ := []
  parsesCleanly _ := true

/-- A blank line is crossed even if an edit is anchored on it, and a module is moved over the
content of the function that it was put into. -/
theorem not_crossesUnowned : ¬ CrossesUnowned insertsInGap
        (repairAfterInsertLandings insertsInGap gappedBlock none).edits gappedBlock ∧
      ¬ CrossesUnowned insertModule
        (repairAfterInsertLandings insertModule nestedModule (some moduleProbe)).edits
          nestedModule := by
  unfold CrossesUnowned
  decide +kernel

end BreadboardTui.Hashline.Apply
