import BreadboardTui.Hashline.Landings
import BreadboardTui.Lib.Beam
import Mathlib.Data.Prod.Lex

/-!
# Repair of the boundaries of replacements

Where the result of a patch does not parse, a replacement may have taken in a row of the file that
it should have kept, or its payload may restate rows around it. Each group has variants that keep
or drop such rows; the search tries combinations of them, the cheapest first, and takes one whose
text parses unless another text that parses costs the same.
-/

namespace BreadboardTui.Hashline.Apply

open List

open BlockEdits (Cursor)

/-! ### Evidence -/

def nearestContentAbove (fileLines : List Row) (count : ℕ) : Option Row :=
  if count ≤ fileLines.length then (fileLines.take count).reverse.find? hasNonWhitespace else none

def nearestContentBelow (fileLines : List Row) (start : ℕ) : Option Row :=
  (fileLines.drop start).find? hasNonWhitespace

/-- `payloadEdge`, for the first row with content and for the last one. -/
def payloadEdge (payload : List Row) : Side → Option Row
  | .leading => payload.find? hasNonWhitespace
  | .trailing => payload.reverse.find? hasNonWhitespace

/-- The loop of `effectiveTrailingBoundary`: a line of the range goes if the next line that survives
is the same. -/
def shrinkRange (edits : List (AppliedEdit Row)) (fileLines : List Row) (startLine : ℕ) :
    ℕ → ℕ → ℕ
  | 0, _ => 0
  | line + 1, survivor =>
    if startLine < line + 1 ∧ survivor ≤ fileLines.length ∧ isDeleted edits survivor = false ∧
        lineAt fileLines (line + 1) = lineAt fileLines survivor then
      shrinkRange edits fileLines startLine line (survivor + 1)
    else line + 1

def effectiveTrailingBoundary (group : ReplacementGroup Row) (edits : List (AppliedEdit Row))
    (fileLines : List Row) : ℕ :=
  shrinkRange edits fileLines group.startLine group.endLine (group.endLine + 1)

def isSyntaxEssentialRow (fileLines : List Row) (probe : SyntaxProbe) (line : ℕ)
    (baselineParses : Bool) : Bool :=
  if baselineParses then
    !probe.parsesCleanly (joinRows (fileLines.take (line - 1) ++ fileLines.drop line))
  else true

structure EdgeEvidence where
  first : Bool
  last : Bool
  leadingStructure : Bool
  deriving DecidableEq, Repr

def edgeEvidence (fileLines : List Row) (probe : SyntaxProbe) (group : ReplacementGroup Row)
    (trailingLine : ℕ) (baselineParses : Bool) : EdgeEvidence :=
  if baselineParses then
    let first := isSyntaxEssentialRow fileLines probe group.startLine true
    { first := first
      last := if trailingLine = group.startLine then first
        else isSyntaxEssentialRow fileLines probe trailingLine true
      leadingStructure := group.startLine + 1 ≤ trailingLine &&
        (probe.enclosingBoundaries fileLines (group.startLine + 1) trailingLine).contains
          group.startLine }
  else ⟨true, true, false⟩

/-! ### Variants of a group -/

/-- The row that is kept, before or after the payload. -/
structure KeepPlan where
  beforeLine : Option ℕ := none
  afterLine : Option ℕ := none
  kept : ℕ
  deriving DecidableEq, Repr

def indentOf (row : Row) : ℕ := indentColumns row.units

/-- The plans for a range that has shrunk to one line. -/
def keepSingleLine (group : ReplacementGroup Row) (trailingPayload : Row) (fileLines : List Row)
    (evidence : EdgeEvidence) (baselineParses : Bool) : List KeepPlan × Bool :=
  let trailingIndent := indentOf trailingPayload
  let firstIndent := indentOf (rowAt fileLines group.startLine)
  let fitsBefore := (nearestContentAbove fileLines (group.startLine - 1)).all fun previous =>
    indentOf previous = trailingIndent
  if evidence.first && fitsBefore && decide (firstIndent < trailingIndent) then
    ([{ kept := 0 }, { afterLine := some group.startLine, kept := 1 }], false)
  else ([{ kept := 0 }], baselineParses && evidence.first && decide (trailingIndent = firstIndent))

/-- The plans for a range of several lines. -/
def keepEdges (group : ReplacementGroup Row) (trailingLine : ℕ) (payload : List Row)
    (leadingPayload trailingPayload : Row) (fileLines : List Row) (evidence : EdgeEvidence)
    (probe : SyntaxProbe) (baselineParses : Bool) : List KeepPlan × Bool :=
  let leadingIndent := indentOf leadingPayload
  let trailingIndent := indentOf trailingPayload
  let firstIndent := indentOf (rowAt fileLines group.startLine)
  let lastIndent := indentOf (rowAt fileLines trailingLine)
  let next := nearestContentBelow fileLines group.startLine
  let previous := nearestContentAbove fileLines (trailingLine - 1)
  let beforeFirst := nearestContentAbove fileLines (group.startLine - 1)
  let selectedLeadingBoundary :=
    (probe.enclosingBoundaries fileLines (group.startLine + 1) group.endLine).contains
      group.startLine
  let selectedStructuralEdge := isStructuralCloser (rowAt fileLines group.startLine) &&
    firstIndent = leadingIndent && firstIndent = indentOf (rowAt fileLines group.endLine)
  let underfilledEffectiveEdge := trailingLine < group.endLine &&
    payload.length < group.endLine - group.startLine + 1
  let keepsLeading := evidence.first &&
    (evidence.leadingStructure || selectedLeadingBoundary || selectedStructuralEdge ||
      underfilledEffectiveEdge) &&
    (match next with
      | none => decide (firstIndent ≤ leadingIndent)
      | some next =>
        if selectedStructuralEdge then decide (firstIndent ≤ leadingIndent)
        else decide (indentOf next = leadingIndent))
  let keepsTrailing := (evidence.last || underfilledEffectiveEdge) && !keepsLeading &&
    decide (lastIndent < trailingIndent) &&
    previous.all fun previous => indentOf previous = trailingIndent
  let ambiguous := baselineParses && evidence.first &&
    (beforeFirst.any fun beforeFirst => firstIndent < indentOf beforeFirst) &&
    decide (firstIndent < leadingIndent)
  ([{ kept := 0 }] ++
    (if keepsLeading then [{ beforeLine := some group.startLine, kept := 1 }] else []) ++
    (if keepsTrailing then [{ afterLine := some trailingLine, kept := 1 }] else []), ambiguous)

def buildKeepPlans (group : ReplacementGroup Row) (trailingLine : ℕ) (payload : List Row)
    (fileLines : List Row) (evidence : EdgeEvidence) (probe : SyntaxProbe)
    (baselineParses : Bool) : List KeepPlan × Bool :=
  match payloadEdge payload .leading, payloadEdge payload .trailing with
  | some leadingPayload, some trailingPayload =>
    if group.startLine = trailingLine then
      keepSingleLine group trailingPayload fileLines evidence baselineParses
    else
      keepEdges group trailingLine payload leadingPayload trailingPayload fileLines evidence probe
        baselineParses
  | _, _ => ([{ kept := 0 }], false)

structure GroupVariant where
  edits : List (AppliedEdit Row)
  kept : ℕ
  dropped : ℕ
  deriving DecidableEq

/-- The inserts of a group, put elsewhere. -/
def withCursor (cursor : Cursor) : AppliedEdit Row → AppliedEdit Row
  | .insert _ text lineNum replacement blockStart =>
    .insert cursor text lineNum replacement blockStart
  | .delete line lineNum => .delete line lineNum

def applyGroupVariant (inserts deletes : List (AppliedEdit Row)) (keep : KeepPlan)
    (dropLeading dropTrailing fileLineCount : ℕ) : List (AppliedEdit Row) :=
  let retainedInserts := (inserts.take (inserts.length - dropTrailing)).drop dropLeading
  let retainedDeletes := deletes.filter fun edit => edit.anchors.all fun line =>
    some line ≠ keep.beforeLine && some line ≠ keep.afterLine
  match keep.beforeLine with
  | none => retainedInserts ++ retainedDeletes
  | some beforeLine =>
    let cursor := if fileLineCount ≤ beforeLine then .eof else .beforeAnchor (beforeLine + 1)
    retainedInserts.map (withCursor cursor) ++ retainedDeletes

/-- The variants for one choice of what is dropped. -/
def dropVariants (group : ReplacementGroup Row) (fileLineCount leadingDrop trailingDrop : ℕ)
    (plans : List KeepPlan) : List GroupVariant :=
  let dropped := leadingDrop + trailingDrop
  let payloadLength := group.payload.length - trailingDrop - leadingDrop
  (plans.filter fun keep => !(keep.kept = 0 && dropped = 0) &&
      !(0 < keep.kept && 1 < group.deletes.length && group.deletes.length < payloadLength)).map
    fun keep => ⟨applyGroupVariant group.inserts group.deletes keep leadingDrop trailingDrop
      fileLineCount, keep.kept, dropped⟩

structure GroupVariants where
  variants : List GroupVariant
  ambiguous : Bool
  deriving DecidableEq

/-- The variants for each choice of what is dropped, and whether it is ambiguous what is kept. -/
def groupHypotheses (group : ReplacementGroup Row) (edits : List (AppliedEdit Row))
    (fileLines : List Row) (probe : SyntaxProbe) (baselineParses : Bool) :
    List (List GroupVariant × Bool) :=
  let trailingLine := effectiveTrailingBoundary group edits fileLines
  let evidence := edgeEvidence fileLines probe group trailingLine baselineParses
  let dropJ := countDuplicateLeadingBoundaryLines group fileLines
  let dropK := countDuplicateTrailingBoundaryLines group fileLines
  let drops := (if 0 < dropJ then [0, dropJ] else [0]).flatMap fun leadingDrop =>
    (if 0 < dropK then [0, dropK] else [0]).map fun trailingDrop => (leadingDrop, trailingDrop)
  (drops.filter fun drop => drop.1 + drop.2 < group.inserts.length).map fun drop =>
    let payload := (group.payload.take (group.payload.length - drop.2)).drop drop.1
    let keep := buildKeepPlans group trailingLine payload fileLines evidence probe baselineParses
    (dropVariants group fileLines.length drop.1 drop.2 keep.1, keep.2)

def buildGroupVariants (group : ReplacementGroup Row) (edits : List (AppliedEdit Row))
    (fileLines : List Row) (probe : SyntaxProbe) (baselineParses : Bool) : GroupVariants :=
  let built := groupHypotheses group edits fileLines probe baselineParses
  { variants := (built.flatMap Prod.fst).mergeSort fun a b =>
      toLex (a.kept, a.dropped) ≤ toLex (b.kept, b.dropped)
    ambiguous := built.any Prod.snd }

/-! ### Combinations -/

/-- One choice for each group with variants; `none` keeps the group as authored. -/
structure BoundaryCombo where
  variants : List (Option GroupVariant)
  touched : ℕ
  kept : ℕ
  dropped : ℕ
  deriving DecidableEq

namespace BoundaryCombo

/-- The cost, in the order of `compareBoundaryCombo`. -/
def cost (combo : BoundaryCombo) : ℕ ×ₗ ℕ ×ₗ ℕ :=
  toLex (combo.touched, toLex (combo.kept, combo.dropped))

def skip (combo : BoundaryCombo) : BoundaryCombo :=
  { combo with variants := combo.variants ++ [none] }

def choose (combo : BoundaryCombo) (variant : GroupVariant) : BoundaryCombo where
  variants := combo.variants ++ [some variant]
  touched := combo.touched + 1
  kept := combo.kept + variant.kept
  dropped := combo.dropped + variant.dropped

/-- The combination with a choice for one more group. -/
def extend (variants : List GroupVariant) (combo : BoundaryCombo) : List BoundaryCombo :=
  combo.skip :: variants.map combo.choose

end BoundaryCombo

def maxBoundaryCombos : ℕ := 512

def authoredCombo : BoundaryCombo := ⟨[], 0, 0, 0⟩

/-- The combinations, cut off after each group. -/
def boundaryCombos (groups : List (List GroupVariant)) : List BoundaryCombo :=
  Beam.beam BoundaryCombo.cost maxBoundaryCombos (groups.map BoundaryCombo.extend) [authoredCombo]

/-- All combinations. -/
def allCombos (groups : List (List GroupVariant)) : List BoundaryCombo :=
  Beam.all (groups.map BoundaryCombo.extend) [authoredCombo]

/-- The edits with the choices in the places of the groups that have variants, each of which is told
by its first insert. -/
def spliceBoundaryCombo (variantsOf : ReplacementGroup Row → List GroupVariant) :
    List (Segment Row) → List (Option GroupVariant) → List (AppliedEdit Row)
  | [], _ => []
  | .single edit :: rest, choices => edit :: spliceBoundaryCombo variantsOf rest choices
  | .replacement group :: rest, choices =>
    if variantsOf group = [] then group.edits ++ spliceBoundaryCombo variantsOf rest choices
    else match choices with
      | some variant :: choices => variant.edits ++ spliceBoundaryCombo variantsOf rest choices
      | none :: choices => group.edits ++ spliceBoundaryCombo variantsOf rest choices
      | [] => group.edits ++ spliceBoundaryCombo variantsOf rest []

/-! ### The search -/

def ambiguousBoundaryPlacementMessage (startLine endLine : ℕ) : String :=
  "`PUT " ++ toString startLine ++ ".=" ++ toString endLine ++
    ":` rejected: a selected boundary row is required for the file to parse, " ++
    "but the body indentation does not establish whether it belongs before or after that row. " ++
    "Re-read the region and re-issue with a range that excludes every unchanged boundary row."

def boundaryVariantRepairWarning (startLine kept dropped : ℕ) : String :=
  let keptPart := if kept = 0 then []
    else ["retained " ++ toString kept ++
      " syntax-essential source boundary row(s) selected by the range"]
  let droppedPart := if dropped = 0 then []
    else ["dropped " ++ toString dropped ++ " body row(s) duplicated just outside the range"]
  "Auto-repaired replacement boundaries at line " ++ toString startLine ++ ": " ++
    String.intercalate " and " (keptPart ++ droppedPart) ++ ". " ++
    "The result was verified by the syntax probe — re-issue with the range covering exactly the " ++
    "changed lines and the body as their complete final content."

/-- What the search returns or throws. -/
inductive BoundaryRepair where
  | repaired (edits : List (AppliedEdit Row)) (warnings : List String)
  | undefined
  | thrown (message : String)

/-- Nothing is repaired: an error for the first ambiguous group, if there is one. -/
def unrepaired (ambiguousGroup : Option (ReplacementGroup Row)) : BoundaryRepair :=
  match ambiguousGroup with
  | none => .undefined
  | some group => .thrown (ambiguousBoundaryPlacementMessage group.startLine group.endLine)

section Search

variable (edits : List (AppliedEdit Row)) (fileLines : List Row) (probe : SyntaxProbe)
  (baselineParses : Bool)

def variantsOf (group : ReplacementGroup Row) : List GroupVariant :=
  (buildGroupVariants group edits fileLines probe baselineParses).variants

/-- The groups that have variants. -/
def repairGroups : List (ReplacementGroup Row) :=
  (replacementGroups edits).filter fun group =>
    variantsOf edits fileLines probe baselineParses group ≠ []

def comboEdits (combo : BoundaryCombo) : List (AppliedEdit Row) :=
  spliceBoundaryCombo (variantsOf edits fileLines probe baselineParses) (segments edits)
    combo.variants

def textOf (edits : List (AppliedEdit Row)) : Units :=
  joinRows (materializeEdits fileLines edits).lines

/-- The text of a combination, if it differs from the authored one and parses. -/
def acceptedText (combo : BoundaryCombo) : Option Units :=
  let text := textOf fileLines (comboEdits edits fileLines probe baselineParses combo)
  if text = textOf fileLines edits ∨ probe.parsesCleanly text = false then none else some text

/-- The variants of the groups, for the combinations. -/
def groupVariants : List (List GroupVariant) :=
  (repairGroups edits fileLines probe baselineParses).map
    (variantsOf edits fileLines probe baselineParses)

/-- The kept combinations that touch a group, the cheapest first. -/
def repairCandidates : List BoundaryCombo :=
  ((boundaryCombos (groupVariants edits fileLines probe baselineParses)).filter fun combo =>
    0 < combo.touched).mergeSort fun a b => a.cost ≤ b.cost

def repairWarnings (combo : BoundaryCombo) : List String :=
  ((repairGroups edits fileLines probe baselineParses).zip combo.variants).filterMap fun entry =>
    entry.2.map fun variant =>
      boundaryVariantRepairWarning entry.1.startLine variant.kept variant.dropped

end Search

def repairBoundaryVariants (edits : List (AppliedEdit Row)) (fileLines : List Row)
    (path : Option SyntaxProbe) (baselineParses : Bool) : BoundaryRepair :=
  match path with
  | none => .undefined
  | some probe =>
    let ambiguousGroup := (replacementGroups edits).find? fun group =>
      (buildGroupVariants group edits fileLines probe baselineParses).ambiguous
    if repairGroups edits fileLines probe baselineParses = [] then unrepaired ambiguousGroup
    else match Beam.cheapest BoundaryCombo.cost
        (acceptedText edits fileLines probe baselineParses)
        (repairCandidates edits fileLines probe baselineParses) with
      | .found combo => .repaired (comboEdits edits fileLines probe baselineParses combo)
          (repairWarnings edits fileLines probe baselineParses combo)
      | .tied => unrepaired ambiguousGroup
      | .none => unrepaired ambiguousGroup

/-! ### What is known of a repair -/

theorem BoundaryCombo.extends_extend (variants : List GroupVariant) :
    Beam.Extends BoundaryCombo.cost (BoundaryCombo.extend variants) BoundaryCombo.skip where
  stay_mem combo := mem_cons_self
  cost_stay combo := rfl
  cost_le := by
    intro combo next h
    rcases mem_cons.mp h with rfl | h
    · exact le_rfl
    obtain ⟨variant, -, rfl⟩ := mem_map.mp h
    refine (Prod.Lex.toLex_lt_toLex.mpr (.inl ?_)).le
    exact Nat.lt_succ_self _

/-- How many combinations there are: for each group one for each variant, and one without. -/
theorem length_allCombos (groups : List (List GroupVariant)) :
    (allCombos groups).length = (groups.map fun variants => variants.length + 1).prod := by
  induction groups using List.reverseRecOn with
  | nil => rfl
  | append_singleton groups variants ih =>
    rw [allCombos, Beam.all] at ih ⊢
    rw [map_append, map_append, List.foldl_append, prod_append, ← ih]
    have hextend (combo : BoundaryCombo) :
        (BoundaryCombo.extend variants combo).length = variants.length + 1 := by
      rw [BoundaryCombo.extend, length_cons, length_map]
    show (List.flatMap _ _).length = _
    rw [length_flatMap, funext hextend, map_const', sum_replicate]
    simp

variable {groups : List (List GroupVariant)}

/-- What is cut off leaves as many combinations as the limit has, all of them no dearer. -/
theorem cost_le_of_notMem_boundaryCombos
    {combo : BoundaryCombo} (h : combo ∈ allCombos groups) (hcut : combo ∉ boundaryCombos groups) :
    (boundaryCombos groups).length = maxBoundaryCombos ∧
      ∀ left ∈ boundaryCombos groups, left.cost ≤ combo.cost := by
  refine Beam.cost_le_of_notMem_beam (fun extend hextend => ?_) h hcut
  obtain ⟨variants, -, rfl⟩ := mem_map.mp hextend
  exact ⟨_, BoundaryCombo.extends_extend variants⟩

theorem eq_none_of_touched_eq_zero {combo : BoundaryCombo}
    (h : combo ∈ allCombos groups) (hzero : combo.touched = 0) :
    ∀ choice ∈ combo.variants, choice = none := by
  induction groups using List.reverseRecOn generalizing combo with
  | nil =>
    rw [allCombos, map_nil, Beam.all, foldl_nil, mem_singleton] at h
    rw [h]
    exact fun choice hchoice => absurd hchoice not_mem_nil
  | append_singleton groups variants ih =>
    rw [allCombos, Beam.all, map_append, List.foldl_append] at h
    obtain ⟨before, hbefore, hcombo⟩ := mem_flatMap.mp h
    rcases mem_cons.mp hcombo with rfl | hcombo
    · intro choice hchoice
      rcases mem_append.mp hchoice with hchoice | hchoice
      · exact ih hbefore hzero choice hchoice
      · exact mem_singleton.mp hchoice
    obtain ⟨variant, -, rfl⟩ := mem_map.mp hcombo
    exact absurd hzero (Nat.succ_ne_zero _)

/-- Without a choice the edits are the authored ones. -/
theorem spliceBoundaryCombo_of_none {variantsOf : ReplacementGroup Row → List GroupVariant}
    {segments : List (Segment Row)} {choices : List (Option GroupVariant)}
    (h : ∀ choice ∈ choices, choice = none) :
    spliceBoundaryCombo variantsOf segments choices = segments.flatMap Segment.edits := by
  induction segments generalizing choices with
  | nil =>
    rw [spliceBoundaryCombo]
    rfl
  | cons segment segments ih =>
    rw [flatMap_cons]
    cases segment with
    | single =>
      rw [spliceBoundaryCombo, ih h]
      rfl
    | replacement =>
      unfold spliceBoundaryCombo
      split
      · rw [ih h]
        rfl
      split
      · exact absurd (h _ mem_cons_self) (Option.some_ne_none _)
      · rw [ih fun choice hchoice => h choice (mem_cons_of_mem _ hchoice)]
        rfl
      rw [ih h]
      rfl

section Search

variable {edits : List (AppliedEdit Row)} {fileLines : List Row} {probe : SyntaxProbe}
  {baselineParses : Bool}

variable {combo : BoundaryCombo}

theorem acceptedText_eq_some_iff {text : Units} :
    acceptedText edits fileLines probe baselineParses combo = some text ↔
      textOf fileLines (comboEdits edits fileLines probe baselineParses combo) = text ∧
        text ≠ textOf fileLines edits ∧ probe.parsesCleanly text = true := by
  rw [acceptedText]
  constructor
  · intro h
    split at h
    · exact absurd h (Option.some_ne_none _).symm
    next hnot =>
    rw [not_or, Bool.not_eq_false] at hnot
    cases h
    exact ⟨rfl, hnot⟩
  rintro ⟨rfl, hdiffers, hparses⟩
  rw [if_neg]
  rw [not_or, Bool.not_eq_false]
  exact ⟨hdiffers, hparses⟩

theorem acceptedText_of_touched_eq_zero
    (h : combo ∈ allCombos (groupVariants edits fileLines probe baselineParses))
    (hzero : combo.touched = 0) :
    acceptedText edits fileLines probe baselineParses combo = none := by
  have hedits : comboEdits edits fileLines probe baselineParses combo = edits := by
    rw [comboEdits, spliceBoundaryCombo_of_none (eq_none_of_touched_eq_zero h hzero)]
    exact flatMap_segments edits
  rw [acceptedText, hedits]
  exact if_pos (.inl rfl)

theorem mem_repairCandidates : combo ∈ repairCandidates edits fileLines probe baselineParses ↔
      combo ∈ boundaryCombos (groupVariants edits fileLines probe baselineParses) ∧
        0 < combo.touched := by
  rw [repairCandidates, mem_mergeSort, mem_filter, decide_eq_true_eq]

/-- A repair is that of the combination that the search finds. -/
theorem eq_comboEdits_of_repaired {repaired : List (AppliedEdit Row)} {warnings : List String}
    (h : repairBoundaryVariants edits fileLines (some probe) baselineParses =
      .repaired repaired warnings) :
    ∃ combo, Beam.cheapest BoundaryCombo.cost (acceptedText edits fileLines probe baselineParses)
        (repairCandidates edits fileLines probe baselineParses) = .found combo ∧
      repaired = comboEdits edits fileLines probe baselineParses combo := by
  have hunrepaired (group : Option (ReplacementGroup Row)) :
      unrepaired group ≠ .repaired repaired warnings := by
    cases group <;> exact fun h => BoundaryRepair.noConfusion h
  rw [repairBoundaryVariants] at h
  split at h
  · exact absurd h (hunrepaired _)
  split at h
  · next combo hfound =>
    obtain ⟨rfl, -⟩ := BoundaryRepair.repaired.inj h
    exact ⟨combo, hfound, rfl⟩
  · exact absurd h (hunrepaired _)
  · exact absurd h (hunrepaired _)

end Search

/-- The combination of a repair has a text that parses and is not the authored one. No combination
with such a text is cheaper, and those that are kept and cost the same have the same text. -/
def NeverGuesses (edits : List (AppliedEdit Row)) (fileLines : List Row) (probe : SyntaxProbe)
    (baselineParses : Bool) (repaired : List (AppliedEdit Row)) (combo : BoundaryCombo)
    (kept : List BoundaryCombo) : Prop :=
  repaired = comboEdits edits fileLines probe baselineParses combo ∧
    probe.parsesCleanly (textOf fileLines repaired) = true ∧
    textOf fileLines repaired ≠ textOf fileLines edits ∧
    (∀ other ∈ allCombos (groupVariants edits fileLines probe baselineParses),
      other.cost < combo.cost →
        acceptedText edits fileLines probe baselineParses other = none) ∧
    ∀ other ∈ kept, other.cost = combo.cost → ∀ text,
      acceptedText edits fileLines probe baselineParses other = some text →
        text = textOf fileLines repaired

/-- A repair is that of a combination which the search has kept, and it is no guess among those; it
is no guess among all, if there are no more than the limit. -/
theorem repairBoundaryVariants_neverGuesses (edits : List (AppliedEdit Row)) (fileLines : List Row)
    (path : Option SyntaxProbe) (baselineParses : Bool) :
    match path, repairBoundaryVariants edits fileLines path baselineParses with
    | some probe, .repaired repaired _ =>
      ∃ combo ∈ boundaryCombos (groupVariants edits fileLines probe baselineParses),
        NeverGuesses edits fileLines probe baselineParses repaired combo
            (boundaryCombos (groupVariants edits fileLines probe baselineParses)) ∧
          (((groupVariants edits fileLines probe baselineParses).map
              fun variants => variants.length + 1).prod ≤ maxBoundaryCombos →
            NeverGuesses edits fileLines probe baselineParses repaired combo
              (allCombos (groupVariants edits fileLines probe baselineParses)))
    | none, .repaired _ _ => False
    | _, _ => True := by
  have hkey (probe : SyntaxProbe) (repaired : List (AppliedEdit Row)) (warnings : List String)
      (h : repairBoundaryVariants edits fileLines (some probe) baselineParses =
        .repaired repaired warnings) :
      ∃ combo ∈ boundaryCombos (groupVariants edits fileLines probe baselineParses),
        NeverGuesses edits fileLines probe baselineParses repaired combo
            (boundaryCombos (groupVariants edits fileLines probe baselineParses)) ∧
          (((groupVariants edits fileLines probe baselineParses).map
              fun variants => variants.length + 1).prod ≤ maxBoundaryCombos →
            NeverGuesses edits fileLines probe baselineParses repaired combo
              (allCombos (groupVariants edits fileLines probe baselineParses))) := by
    obtain ⟨combo, hfound, rfl⟩ := eq_comboEdits_of_repaired h
    obtain ⟨hmem, text, htext, hcheap⟩ := Beam.eq_of_cheapest hfound
      (Beam.pairwise_mergeSort_cost _ _)
    obtain ⟨rfl, hdiffers, hparses⟩ := acceptedText_eq_some_iff.mp htext
    have hkept := (mem_repairCandidates.mp hmem).1
    -- a combination that touches no group has the authored text
    have hcase {other : BoundaryCombo}
        (hother : other ∈ boundaryCombos (groupVariants edits fileLines probe baselineParses)) :
        acceptedText edits fileLines probe baselineParses other = none ∨
          other ∈ repairCandidates edits fileLines probe baselineParses := by
      rcases eq_zero_or_pos other.touched with hzero | hpos
      · exact .inl (acceptedText_of_touched_eq_zero (Beam.mem_all_of_mem_beam hother) hzero)
      · exact .inr (mem_repairCandidates.mpr ⟨hother, hpos⟩)
    have hcheaper : ∀ other ∈ allCombos (groupVariants edits fileLines probe baselineParses),
        other.cost < combo.cost →
          acceptedText edits fileLines probe baselineParses other = none := by
      intro other hother hlt
      by_cases hin : other ∈ boundaryCombos (groupVariants edits fileLines probe baselineParses)
      · rcases hcase hin with hnone | hcandidate
        · exact hnone
        · exact (hcheap other hcandidate).1 hlt
      have hle := (cost_le_of_notMem_boundaryCombos hother hin).2 combo hkept
      exact absurd (hlt.trans_le hle) (lt_irrefl _)
    have htie : ∀ other ∈ boundaryCombos (groupVariants edits fileLines probe baselineParses),
        other.cost = combo.cost → ∀ text,
          acceptedText edits fileLines probe baselineParses other = some text →
            text = textOf fileLines (comboEdits edits fileLines probe baselineParses combo) := by
      intro other hother heq text htext
      rcases hcase hother with hnone | hcandidate
      · rw [hnone] at htext
        exact absurd htext (Option.some_ne_none _).symm
      · exact (hcheap other hcandidate).2 heq text htext
    refine ⟨combo, hkept, ⟨rfl, hparses, hdiffers, hcheaper, htie⟩, fun hfew =>
      ⟨rfl, hparses, hdiffers, hcheaper, fun other hother => htie other ?_⟩⟩
    refine Beam.mem_beam_of_length_le (fun extend hextend => ?_) hother ?_
    · obtain ⟨variants, -, rfl⟩ := mem_map.mp hextend
      exact ⟨_, BoundaryCombo.extends_extend variants⟩
    · exact (length_allCombos _).trans_le hfew
  cases path with
  | none => exact trivial
  | some probe =>
    cases h : repairBoundaryVariants edits fileLines (some probe) baselineParses with
    | repaired repaired warnings => exact hkey probe repaired warnings h
    | undefined => exact trivial
    | thrown => exact trivial

/-! ### More combinations than the limit -/

section Echoes

/-- `a`, `b` and `x`. -/
def rowA : Row := ⟨[97], by decide⟩

def rowB : Row := ⟨[98], by decide⟩

def rowX : Row := ⟨[120], by decide⟩

/-- Pairs of `a` and `b`. -/
def echoFile : ℕ → List Row
  | 0 => []
  | count + 1 => rowA :: rowB :: echoFile count

/-- The `a` of a pair is replaced by `x` and an echo of the `b` below it. -/
def echoGroup (pair : ℕ) : ReplacementGroup Row where
  inserts := [.insert (.beforeAnchor (2 * pair + 1)) rowX pair true none,
    .insert (.beforeAnchor (2 * pair + 1)) rowB pair true none]
  deletes := [.delete (2 * pair + 1) pair]
  startLine := 2 * pair + 1

/-- The echo is dropped. -/
def echoVariant (pair : ℕ) : GroupVariant where
  edits := [.insert (.beforeAnchor (2 * pair + 1)) rowX pair true none, .delete (2 * pair + 1) pair]
  kept := 0
  dropped := 1

/-- The edits, where some of the echoes are dropped. -/
def echoEdits (start : ℕ) : List Bool → List (AppliedEdit Row)
  | [] => []
  | dropped :: mask =>
    (if dropped then (echoVariant start).edits else (echoGroup start).edits) ++
      echoEdits (start + 1) mask

def echoChoices (start : ℕ) : List Bool → List (Option GroupVariant)
  | [] => []
  | dropped :: mask =>
    (if dropped then some (echoVariant start) else none) :: echoChoices (start + 1) mask

def masks : ℕ → List (List Bool)
  | 0 => [[]]
  | count + 1 => (masks count).flatMap fun mask => [mask ++ [false], mask ++ [true]]

def echoCombo (mask : List Bool) : BoundaryCombo where
  variants := echoChoices 0 mask
  touched := mask.count true
  kept := 0
  dropped := mask.count true

/-- What becomes of a pair. -/
def echoPiece (dropped : Bool) : List Row := if dropped then [rowX, rowB] else [rowX, rowB, rowB]

/-- A probe that only looks at texts. -/
def textProbe (parses : Units → Bool) : SyntaxProbe where
  nodeChain _ _ := []
  enclosingBoundaries _ _ _ := []
  parsesCleanly := parses

variable {mask : List Bool}

theorem anchors_echoEdits {start : ℕ} {edit : AppliedEdit Row} (h : edit ∈ echoEdits start mask) :
    ∃ pair, start ≤ pair ∧ pair < start + mask.length ∧ edit.anchors = [2 * pair + 1] := by
  induction mask generalizing start with
  | nil => exact absurd h not_mem_nil
  | cons dropped mask ih =>
    rw [echoEdits, mem_append] at h
    rcases h with h | h
    · refine ⟨start, le_rfl, Nat.lt_add_of_pos_right (Nat.succ_pos _), ?_⟩
      cases dropped <;> simp [echoGroup, echoVariant, ReplacementGroup.edits] at h
      · rcases h with rfl | rfl | rfl <;> rfl
      · rcases h with rfl | rfl <;> rfl
    obtain ⟨pair, hle, hlt, hanchors⟩ := ih h
    refine ⟨pair, by omega, ?_, hanchors⟩
    rw [length_cons]
    omega

variable (count : ℕ)

theorem length_echoFile : (echoFile count).length = 2 * count := by
  induction count with
  | zero => rfl
  | succ count ih =>
    rw [echoFile, length_cons, length_cons, ih]
    omega

variable (start : ℕ)

/-- Each pair is spliced on its own. -/
theorem pieces_echoEdits (mask : List Bool) :
    pieces (editsAt (echoEdits start mask)) (2 * start + 1) (echoFile mask.length) =
      mask.flatMap echoPiece := by
  induction mask generalizing start with
  | nil => rfl
  | cons dropped mask ih =>
    have hbelow (line : ℕ) (hline : 2 * start + 3 ≤ line) :
        editsAt (echoEdits start (dropped :: mask)) line =
          editsAt (echoEdits (start + 1) mask) line := by
      rw [echoEdits, editsAt, filter_append]
      have hnone : (if dropped then (echoVariant start).edits else (echoGroup start).edits).filter
          (fun edit => decide (line ∈ edit.anchors)) = [] := by
        have hne : line ≠ 2 * start + 1 := by omega
        cases dropped <;> simp [echoVariant, echoGroup, ReplacementGroup.edits,
          AppliedEdit.anchors, hne]
      rw [hnone]
      rfl
    have hrest (line : ℕ) (hline : line < 2 * start + 3) :
        editsAt (echoEdits (start + 1) mask) line = [] := by
      rw [editsAt, filter_eq_nil_iff]
      intro edit hedit hmem
      obtain ⟨pair, hle, -, hanchors⟩ := anchors_echoEdits hedit
      rw [hanchors, decide_eq_true_eq, mem_singleton] at hmem
      omega
    have hfirst : editsAt (echoEdits start (dropped :: mask)) (2 * start + 1) =
        if dropped then (echoVariant start).edits else (echoGroup start).edits := by
      have hnone := hrest (2 * start + 1) (by omega)
      rw [editsAt] at hnone
      rw [echoEdits, editsAt, filter_append, hnone, append_nil]
      cases dropped <;> simp [echoVariant, echoGroup, ReplacementGroup.edits, AppliedEdit.anchors]
    have hsecond : editsAt (echoEdits start (dropped :: mask)) (2 * start + 1 + 1) = [] := by
      have hnone := hrest (2 * start + 1 + 1) (by omega)
      rw [editsAt] at hnone
      rw [echoEdits, editsAt, filter_append, hnone, append_nil]
      cases dropped <;> simp [echoVariant, echoGroup, ReplacementGroup.edits, AppliedEdit.anchors]
    have htail : pieces (editsAt (echoEdits start (dropped :: mask))) (2 * start + 1 + 1 + 1)
        (echoFile mask.length) = mask.flatMap echoPiece := by
      rw [← ih (start + 1)]
      exact pieces_congr fun line hle _ => hbelow line hle
    rw [length_cons, echoFile, pieces_cons, pieces_cons, hfirst, hsecond, htail, flatMap_cons]
    cases dropped <;> rfl

theorem textOf_echoEdits (mask : List Bool) :
    textOf (echoFile mask.length) (echoEdits 0 mask) = joinRows (mask.flatMap echoPiece) := by
  have hanchored : ∀ edit ∈ echoEdits 0 mask, edit.isAnchored = true := by
    intro edit hedit
    obtain ⟨pair, -, -, hanchors⟩ := anchors_echoEdits hedit
    rw [AppliedEdit.isAnchored, hanchors]
    rfl
  have hbounds : InBounds (echoFile mask.length).length (echoEdits 0 mask) := by
    intro edit hedit line hline
    obtain ⟨pair, -, hlt, hanchors⟩ := anchors_echoEdits hedit
    rw [hanchors, mem_singleton] at hline
    rw [length_echoFile]
    omega
  rw [textOf, materializeEdits_anchored hanchored hbounds, onePass_eq_pieces]
  exact congrArg joinRows (pieces_echoEdits 0 mask)

theorem flatMap_echoPiece_ne_cons (mask : List Bool) (rows : List Row) :
    mask.flatMap echoPiece ≠ rowB :: rows := by
  intro h
  cases mask with
  | nil => exact absurd h.symm (cons_ne_nil _ _)
  | cons dropped =>
    have hfirst : rowX = rowB := by
      rw [flatMap_cons] at h
      cases dropped <;> exact (List.cons.inj h).1
    exact absurd hfirst (by decide)

variable {mask' : List Bool}

/-- What was dropped is read off the rows. -/
theorem flatMap_echoPiece_inj
    (h : mask.flatMap echoPiece = mask'.flatMap echoPiece) : mask = mask' := by
  induction mask generalizing mask' with
  | nil =>
    cases mask' with
    | nil => rfl
    | cons dropped =>
      rw [flatMap_cons] at h
      cases dropped <;> exact absurd h.symm (cons_ne_nil _ _)
  | cons dropped mask ih =>
    cases mask' with
    | nil =>
      rw [flatMap_cons] at h
      cases dropped <;> exact absurd h (cons_ne_nil _ _)
    | cons dropped' =>
      rw [flatMap_cons, flatMap_cons] at h
      cases dropped <;> cases dropped'
      · rw [ih (append_cancel_left h)]
      · have htail := (List.cons.inj (List.cons.inj h).2).2
        exact absurd htail.symm (flatMap_echoPiece_ne_cons _ _)
      · have htail := (List.cons.inj (List.cons.inj h).2).2
        exact absurd htail (flatMap_echoPiece_ne_cons _ _)
      · rw [ih (append_cancel_left h)]

theorem joinRows_echoPiece_inj (hmask : mask ≠ []) (hmask' : mask' ≠ [])
    (h : joinRows (mask.flatMap echoPiece) = joinRows (mask'.flatMap echoPiece)) :
    mask = mask' := by
  have hne {mask : List Bool} (hmask : mask ≠ []) : mask.flatMap echoPiece ≠ [] := by
    obtain ⟨dropped, rest, rfl⟩ := exists_cons_of_ne_nil hmask
    rw [flatMap_cons]
    cases dropped <;> exact cons_ne_nil _ _
  exact flatMap_echoPiece_inj ((joinRows_inj (hne hmask) (hne hmask')).mp h)

theorem spliceBoundaryCombo_echoChoices {variantsOf : ReplacementGroup Row → List GroupVariant}
    (mask : List Bool)
    (h : ∀ pair ∈ List.range' start mask.length, variantsOf (echoGroup pair) ≠ []) :
    spliceBoundaryCombo variantsOf
        ((List.range' start mask.length).map fun pair => .replacement (echoGroup pair))
        (echoChoices start mask) = echoEdits start mask := by
  induction mask generalizing start with
  | nil =>
    rw [length_nil, range'_zero, map_nil, spliceBoundaryCombo]
    rfl
  | cons dropped mask ih =>
    rw [length_cons, range'_succ] at h ⊢
    have hrest := ih (start + 1) fun pair hpair => h pair (mem_cons_of_mem _ hpair)
    rw [map_cons, echoChoices, echoEdits]
    unfold spliceBoundaryCombo
    rw [if_neg (h start mem_cons_self)]
    cases dropped
    · show (echoGroup start).edits ++ _ = _
      rw [hrest]
      rfl
    show (echoVariant start).edits ++ _ = _
    rw [hrest]
    rfl

/-! ### Ten pairs -/

/-- Ten echoes, none of them dropped. -/
def tenEchoes : List (AppliedEdit Row) := echoEdits 0 (List.replicate 10 false)

theorem segments_tenEchoes :
    segments tenEchoes = (List.range' 0 10).map fun pair => .replacement (echoGroup pair) := by
  decide +kernel

variable (parses : Units → Bool)

theorem groupHypotheses_tenEchoes : ∀ pair ∈ List.range' 0 10,
      groupHypotheses (echoGroup pair) tenEchoes (echoFile 10) (textProbe parses) false =
        [([], false), ([echoVariant pair], false)] := by
  have hparses (pair : ℕ) :
      groupHypotheses (echoGroup pair) tenEchoes (echoFile 10) (textProbe parses) false =
        groupHypotheses (echoGroup pair) tenEchoes (echoFile 10) (textProbe fun _ => false)
          false := rfl
  have hall : ∀ pair ∈ List.range' 0 10,
      groupHypotheses (echoGroup pair) tenEchoes (echoFile 10) (textProbe fun _ => false) false =
        [([], false), ([echoVariant pair], false)] := by
    decide +kernel
  intro pair hpair
  rw [hparses]
  exact hall pair hpair

theorem variantsOf_tenEchoes {pair : ℕ} (h : pair ∈ List.range' 0 10) :
    variantsOf tenEchoes (echoFile 10) (textProbe parses) false (echoGroup pair) =
      [echoVariant pair] := by
  rw [variantsOf, buildGroupVariants]
  rw [groupHypotheses_tenEchoes parses pair h]
  exact mergeSort_singleton _

theorem repairGroups_tenEchoes : repairGroups tenEchoes (echoFile 10) (textProbe parses) false =
      (List.range' 0 10).map echoGroup := by
  have hgroups : replacementGroups tenEchoes = (List.range' 0 10).map echoGroup := by
    rw [replacementGroups, segments_tenEchoes, filterMap_map]
    exact filterMap_eq_map (f := echoGroup) ▸ rfl
  rw [repairGroups, hgroups, filter_eq_self]
  intro group hgroup
  obtain ⟨pair, hpair, rfl⟩ := mem_map.mp hgroup
  rw [variantsOf_tenEchoes parses hpair]
  rfl

theorem groupVariants_tenEchoes : groupVariants tenEchoes (echoFile 10) (textProbe parses) false =
      (List.range' 0 10).map fun pair => [echoVariant pair] := by
  rw [groupVariants, repairGroups_tenEchoes, map_map]
  exact map_congr_left fun pair hpair => variantsOf_tenEchoes parses hpair

theorem length_of_mem_masks {count : ℕ} (h : mask ∈ masks count) : mask.length = count := by
  induction count generalizing mask with
  | zero => rw [mem_singleton.mp h, length_nil]
  | succ count ih =>
    obtain ⟨shorter, hshorter, hmask⟩ := mem_flatMap.mp h
    rcases mem_pair.mp hmask with rfl | rfl <;>
      rw [length_append, ih hshorter, length_singleton]

theorem masks_nodup : (masks count).Nodup := by
  induction count with
  | zero => exact nodup_singleton _
  | succ count ih =>
    refine nodup_flatMap.mpr ⟨fun mask _ => ?_, ih.imp fun {mask mask'} hne => ?_⟩
    · rw [nodup_cons, mem_singleton, append_cancel_left_eq]
      exact ⟨by decide, nodup_singleton _⟩
    -- The masks without their last bits differ.
    intro longer hlonger hlonger'
    refine hne ?_
    rcases mem_pair.mp hlonger with rfl | rfl <;>
      rcases mem_pair.mp hlonger' with h | h <;>
      exact (append_inj' h rfl).1

theorem echoChoices_append (mask : List Bool) (dropped : Bool) :
    echoChoices start (mask ++ [dropped]) =
      echoChoices start mask ++
        [if dropped then some (echoVariant (start + mask.length)) else none] := by
  induction mask generalizing start with
  | nil => rfl
  | cons first mask ih =>
    rw [cons_append, echoChoices, ih, echoChoices, cons_append, length_cons,
      add_right_comm, add_assoc]

theorem extend_echoCombo (mask : List Bool) :
    BoundaryCombo.extend [echoVariant mask.length] (echoCombo mask) =
      [echoCombo (mask ++ [false]), echoCombo (mask ++ [true])] := by
  have hskip : (echoCombo mask).skip = echoCombo (mask ++ [false]) := by
    rw [echoCombo, echoCombo, echoChoices_append, count_append]
    rfl
  have hchoose : (echoCombo mask).choose (echoVariant mask.length) =
      echoCombo (mask ++ [true]) := by
    rw [echoCombo, echoCombo, echoChoices_append, count_append, zero_add]
    rfl
  rw [BoundaryCombo.extend, hskip, map_singleton, hchoose]

theorem allCombos_echoes : allCombos ((List.range' 0 count).map fun pair => [echoVariant pair]) =
      (masks count).map echoCombo := by
  induction count with
  | zero => rfl
  | succ count ih =>
    rw [allCombos, Beam.all] at ih ⊢
    rw [range'_1_concat, zero_add, map_append, map_append, List.foldl_append, ih,
      masks, map_flatMap]
    rw [map_singleton, map_singleton, foldl_cons, foldl_nil, flatMap_map]
    refine flatMap_congr fun mask hmask => ?_
    rw [← length_of_mem_masks hmask]
    exact extend_echoCombo mask

/-- There are more combinations of at most five groups than the limit, and fewer of at most four. -/
theorem countP_masks : (masks 10).countP (fun mask => mask.count true ≤ 4) = 386 ∧
    (masks 10).countP (fun mask => mask.count true ≤ 5) = 638 := by
  decide +kernel

theorem comboEdits_echoCombo (h : mask ∈ masks 10) :
    comboEdits tenEchoes (echoFile 10) (textProbe parses) false (echoCombo mask) =
      echoEdits 0 mask := by
  have hlength := length_of_mem_masks h
  rw [comboEdits, segments_tenEchoes, ← hlength]
  refine spliceBoundaryCombo_echoChoices 0 mask fun pair hpair => ?_
  rw [hlength] at hpair ⊢
  rw [variantsOf_tenEchoes parses hpair]
  exact cons_ne_nil _ _

theorem textOf_echoCombo (h : mask ∈ masks 10) : textOf (echoFile 10)
        (comboEdits tenEchoes (echoFile 10) (textProbe parses) false (echoCombo mask)) =
      joinRows (mask.flatMap echoPiece) := by
  rw [comboEdits_echoCombo parses h, ← textOf_echoEdits, length_of_mem_masks h]

/-- The text tells the combination. -/
theorem mask_eq_of_text_eq (h : mask ∈ masks 10) (h' : mask' ∈ masks 10)
    (htext : joinRows (mask.flatMap echoPiece) = joinRows (mask'.flatMap echoPiece)) :
    mask = mask' := by
  have hne {mask : List Bool} (h : mask ∈ masks 10) : mask ≠ [] := by
    rintro rfl
    exact absurd (length_of_mem_masks h) (by decide)
  exact joinRows_echoPiece_inj (hne h) (hne h') htext

/-- Two combinations of five groups, of which the search keeps one. -/
theorem exists_cut_off : ∃ left ∈ masks 10, ∃ cut ∈ masks 10,
    echoCombo left ∈ boundaryCombos ((List.range' 0 10).map fun pair => [echoVariant pair]) ∧
      echoCombo cut ∉ boundaryCombos ((List.range' 0 10).map fun pair => [echoVariant pair]) ∧
      left.count true = 5 ∧ cut.count true = 5 := by
  obtain ⟨groups, hgroups⟩ : ∃ groups, groups =
      (List.range' 0 10).map fun pair => [echoVariant pair] := ⟨_, rfl⟩
  have hall : allCombos groups = (masks 10).map echoCombo := by
    rw [hgroups]
    exact allCombos_echoes 10
  rw [← hgroups]
  have hsubperm : (boundaryCombos groups).Subperm ((masks 10).map echoCombo) := by
    rw [← hall]
    exact Beam.beam_subperm_all ..
  have hle : (boundaryCombos groups).length ≤ 512 := Beam.length_beam_le (by decide)
  -- the combinations of at most five groups are too many, and those of at most four too few
  have hcut : ∃ cut ∈ masks 10, cut.count true ≤ 5 ∧ echoCombo cut ∉ boundaryCombos groups := by
    by_contra hnone
    push Not at hnone
    have hsubset : ((masks 10).filter fun mask => mask.count true ≤ 5).map echoCombo ⊆
        boundaryCombos groups := by
      intro combo hcombo
      obtain ⟨mask, hmask, rfl⟩ := mem_map.mp hcombo
      obtain ⟨hmem, hcount⟩ := mem_filter.mp hmask
      exact hnone mask hmem (of_decide_eq_true hcount)
    have hnodup : (((masks 10).filter fun mask => mask.count true ≤ 5).map echoCombo).Nodup := by
      refine List.Nodup.map_on (fun mask hmask mask' hmask' heq => ?_) ((masks_nodup 10).filter _)
      have hmem := (mem_filter.mp hmask).1
      have hmem' := (mem_filter.mp hmask').1
      refine mask_eq_of_text_eq hmem hmem' ?_
      rw [← textOf_echoCombo (fun _ => false) hmem, heq, textOf_echoCombo _ hmem']
    have hlength := (hnodup.subperm hsubset).length_le
    rw [length_map, ← countP_eq_length_filter, countP_masks.2] at hlength
    omega
  obtain ⟨cut, hcutMem, hcutLe, hcutOff⟩ := hcut
  obtain ⟨hfull, hcheaper⟩ := cost_le_of_notMem_boundaryCombos
    (hall ▸ mem_map_of_mem hcutMem) hcutOff
  have htouched {a b : BoundaryCombo} (h : a.cost ≤ b.cost) : a.touched ≤ b.touched := by
    rcases Prod.Lex.toLex_le_toLex.mp h with hlt | ⟨heq, -⟩
    · exact hlt.le
    · exact heq.le
  have hfive : ∃ left ∈ boundaryCombos groups, 4 < left.touched := by
    by_contra hnone
    push Not at hnone
    have hcount : (boundaryCombos groups).countP (fun combo => combo.touched ≤ 4) =
        (boundaryCombos groups).length :=
      countP_eq_length.mpr fun combo hcombo => decide_eq_true (hnone combo hcombo)
    have hfew := hsubperm.countP_le (p := fun combo => decide (combo.touched ≤ 4))
    have hmasks : ((masks 10).map echoCombo).countP (fun combo => combo.touched ≤ 4) = 386 := by
      rw [countP_map]
      exact countP_masks.1
    rw [hcount, hmasks, hfull] at hfew
    exact absurd hfew (by decide)
  obtain ⟨combo, hcombo, hfour⟩ := hfive
  obtain ⟨left, hleft, rfl⟩ := mem_map.mp (hsubperm.subset hcombo)
  have hbound := htouched (hcheaper _ hcombo)
  refine ⟨left, hleft, cut, hcutMem, hcombo, hcutOff, ?_, ?_⟩
  · exact le_antisymm (hbound.trans hcutLe) hfour
  · exact le_antisymm hcutLe (hfour.trans_le hbound)

/-- A probe for which the results of some masks parse. -/
def echoProbe (texts : List (List Bool)) : SyntaxProbe :=
  textProbe fun text => texts.any fun mask => text = joinRows (mask.flatMap echoPiece)

theorem parsesCleanly_echoProbe {texts : List (List Bool)} (h : mask ∈ masks 10)
    (htexts : ∀ other ∈ texts, other ∈ masks 10) :
    (echoProbe texts).parsesCleanly (textOf (echoFile 10)
      (comboEdits tenEchoes (echoFile 10) (echoProbe texts) false (echoCombo mask))) = true ↔
        mask ∈ texts := by
  rw [echoProbe, textOf_echoCombo _ h]
  show (texts.any fun _ => _) = true ↔ _
  rw [any_eq_true]
  constructor
  · rintro ⟨other, hother, htext⟩
    rw [mask_eq_of_text_eq h (htexts other hother) (of_decide_eq_true htext)]
    exact hother
  · exact fun hmem => ⟨mask, hmem, decide_eq_true rfl⟩

/-- Of two combinations that cost the same, and whose texts both parse, the search has cut one off
and repairs with the other; and the authored text, which costs nothing, parses as well. -/
theorem repairBoundaryVariants_tenEchoes : ∃ probe repaired warnings combo,
      repairBoundaryVariants tenEchoes (echoFile 10) (some probe) false =
          .repaired repaired warnings ∧
        combo ∈ allCombos (groupVariants tenEchoes (echoFile 10) probe false) ∧
        repaired = comboEdits tenEchoes (echoFile 10) probe false combo ∧
        (∃ other ∈ allCombos (groupVariants tenEchoes (echoFile 10) probe false),
          other.cost = combo.cost ∧
            probe.parsesCleanly
              (textOf (echoFile 10) (comboEdits tenEchoes (echoFile 10) probe false other)) = true ∧
            textOf (echoFile 10) (comboEdits tenEchoes (echoFile 10) probe false other) ≠
              textOf (echoFile 10) repaired) ∧
        ∃ other ∈ allCombos (groupVariants tenEchoes (echoFile 10) probe false),
          other.cost < combo.cost ∧
            probe.parsesCleanly
              (textOf (echoFile 10) (comboEdits tenEchoes (echoFile 10) probe false other)) = true ∧
            textOf (echoFile 10) (comboEdits tenEchoes (echoFile 10) probe false other) ≠
              textOf (echoFile 10) repaired := by
  obtain ⟨left, hleft, cut, hcut, hkept, hcutOff, hleftFive, hcutFive⟩ := exists_cut_off
  have hnone : List.replicate 10 false ∈ masks 10 := by decide +kernel
  have hleftNe : left ≠ List.replicate 10 false := by
    rintro rfl
    exact absurd hleftFive (by decide)
  have hcutNe : cut ≠ left := by
    rintro rfl
    exact hcutOff hkept
  obtain ⟨texts, htexts⟩ : ∃ texts, texts = [left, cut, List.replicate 10 false] := ⟨_, rfl⟩
  have hmasks : ∀ mask ∈ texts, mask ∈ masks 10 := by
    rw [htexts]
    intro mask hmask
    simp only [mem_cons, not_mem_nil, or_false] at hmask
    rcases hmask with rfl | rfl | rfl
    · exact hleft
    · exact hcut
    · exact hnone
  have hall : allCombos (groupVariants tenEchoes (echoFile 10) (echoProbe texts) false) =
      (masks 10).map echoCombo := by
    rw [echoProbe, groupVariants_tenEchoes]
    exact allCombos_echoes 10
  have hdiffers {mask mask' : List Bool} (hmask : mask ∈ masks 10) (hmask' : mask' ∈ masks 10)
      (hne : mask ≠ mask') :
      textOf (echoFile 10)
          (comboEdits tenEchoes (echoFile 10) (echoProbe texts) false (echoCombo mask)) ≠
        textOf (echoFile 10)
          (comboEdits tenEchoes (echoFile 10) (echoProbe texts) false (echoCombo mask')) := by
    rw [echoProbe, textOf_echoCombo _ hmask, textOf_echoCombo _ hmask']
    exact fun h => hne (mask_eq_of_text_eq hmask hmask' h)
  have hauthored : comboEdits tenEchoes (echoFile 10) (echoProbe texts) false
      (echoCombo (List.replicate 10 false)) = tenEchoes := by
    rw [echoProbe, comboEdits_echoCombo _ hnone]
    rfl
  -- the combination that is left is the only candidate with a text that parses
  have hfound : Beam.cheapest BoundaryCombo.cost
      (acceptedText tenEchoes (echoFile 10) (echoProbe texts) false)
      (repairCandidates tenEchoes (echoFile 10) (echoProbe texts) false) =
        .found (echoCombo left) := by
    refine Beam.cheapest_eq_found (mem_repairCandidates.mpr ⟨?_, ?_⟩)
      (acceptedText_eq_some_iff.mpr ⟨rfl, ?_, ?_⟩) fun other hother text haccept => ?_
    · rw [echoProbe, groupVariants_tenEchoes]
      exact hkept
    · show 0 < left.count true
      rw [hleftFive]
      decide
    · have hne := hdiffers hleft hnone hleftNe
      rw [hauthored] at hne
      exact hne
    · refine (parsesCleanly_echoProbe hleft hmasks).mpr ?_
      rw [htexts]
      exact mem_cons_self
    have hbeam := (mem_repairCandidates.mp hother).1
    have hmem : other ∈ (masks 10).map echoCombo := by
      rw [← hall]
      exact Beam.mem_all_of_mem_beam hbeam
    obtain ⟨mask, hmask, rfl⟩ := mem_map.mp hmem
    obtain ⟨rfl, hnotAuthored, hparses⟩ := acceptedText_eq_some_iff.mp haccept
    have hin := (parsesCleanly_echoProbe hmask hmasks).mp hparses
    rw [htexts] at hin
    simp only [mem_cons, not_mem_nil, or_false] at hin
    rcases hin with rfl | rfl | rfl
    · rfl
    · rw [echoProbe, groupVariants_tenEchoes] at hbeam
      exact absurd hbeam hcutOff
    rw [hauthored] at hnotAuthored
    exact absurd rfl hnotAuthored
  have hgroups : repairGroups tenEchoes (echoFile 10) (echoProbe texts) false ≠ [] := by
    rw [echoProbe, repairGroups_tenEchoes]
    exact cons_ne_nil _ _
  have hmemAll {mask : List Bool} (hmask : mask ∈ masks 10) : echoCombo mask ∈
      allCombos (groupVariants tenEchoes (echoFile 10) (echoProbe texts) false) := by
    rw [hall]
    exact mem_map_of_mem hmask
  refine ⟨echoProbe texts, _,
    repairWarnings tenEchoes (echoFile 10) (echoProbe texts) false (echoCombo left),
    echoCombo left, ?_, hmemAll hleft, rfl,
    ⟨echoCombo cut, hmemAll hcut, ?_, (parsesCleanly_echoProbe hcut hmasks).mpr ?_,
      hdiffers hcut hleft hcutNe⟩,
    ⟨echoCombo (List.replicate 10 false), hmemAll hnone, ?_,
      (parsesCleanly_echoProbe hnone hmasks).mpr ?_, hdiffers hnone hleft hleftNe.symm⟩⟩
  · rw [repairBoundaryVariants, if_neg hgroups, hfound]
  · show toLex (cut.count true, toLex (0, cut.count true)) =
      toLex (left.count true, toLex (0, left.count true))
    rw [hcutFive, hleftFive]
  · rw [htexts]
    exact mem_cons_of_mem _ mem_cons_self
  · refine Prod.Lex.toLex_lt_toLex.mpr (.inl ?_)
    show (List.replicate 10 false).count true < left.count true
    rw [hleftFive]
    decide
  rw [htexts]
  exact mem_cons_of_mem _ (mem_cons_of_mem _ mem_cons_self)

end Echoes

end BreadboardTui.Hashline.Apply
